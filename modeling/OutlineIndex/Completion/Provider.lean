import OutlineIndex.Data.Json
import OutlineIndex.Trace

namespace OutlineIndex

inductive Vendor where
  | ollama
  | openai
  | groq
  | anthropic
  deriving DecidableEq, Repr

/-- A service with the model, key and address to use, as the settings give them. -/
structure Provider where
  vendor : Vendor
  model : Data
  key : Data
  endpoint : Data

namespace Vendor

def label : Vendor → String
  | .ollama => "OllamaProvider"
  | .openai => "OpenAIProvider"
  | .groq => "GroqProvider"
  | .anthropic => "AnthropicProvider"

/-- The vendor that a name stands for; an unknown name stands for a local service. -/
def ofName (name : String) : Vendor :=
  if name = "openai" then .openai
  else if name = "anthropic" then .anthropic
  else if name = "groq" then .groq
  else .ollama

def defaultModel : Vendor → String
  | .ollama => "qwen2.5-coder:7b"
  | .openai => "gpt-4o-mini"
  | .groq => "llama-3.3-70b-versatile"
  | .anthropic => "claude-3-5-haiku-latest"

def defaultEndpoint : Vendor → String
  | .ollama => "http://127.0.0.1:11434/api/generate"
  | .openai => "https://api.openai.com/v1/chat/completions"
  | .groq => "https://api.groq.com/openai/v1/chat/completions"
  | .anthropic => "https://api.anthropic.com/v1/messages"

/-- Whether the address can be set. -/
def isMovable : Vendor → Bool
  | .ollama => true
  | .openai => true
  | .groq => false
  | .anthropic => false

/-- Whether nothing is sent without a key. -/
def needsKey : Vendor → Bool
  | .ollama => false
  | _ => true

end Vendor

namespace Provider

def timeout : Nat := 60

/-- One tenth, the temperature of every request. -/
def temperature : Data := .real ⟨false, 1, -1⟩

def headers (p : Provider) : List (String × String) :=
  let kind := ("Content-Type", "application/json")
  match p.vendor with
  | .ollama => [kind]
  | .openai => [kind, ("Authorization", "Bearer " ++ p.key.shown)]
  | .groq => [kind, ("Authorization", "Bearer " ++ p.key.shown)]
  | .anthropic => [kind, ("x-api-key", p.key.shown), ("anthropic-version", "2023-06-01")]

def payload (p : Provider) (prompt : String) (maxTokens : Int) : List (String × Data) :=
  let messages := Data.list [.record [("role", .text "user"), ("content", .text prompt)]]
  match p.vendor with
  | .ollama =>
    [("model", p.model), ("prompt", .text prompt), ("stream", .flag false),
      ("options", .record [("temperature", temperature), ("num_predict", .whole maxTokens)])]
  | .anthropic =>
    [("model", p.model), ("messages", messages), ("max_tokens", .whole maxTokens),
      ("temperature", temperature)]
  | _ =>
    [("model", p.model), ("messages", messages), ("temperature", temperature),
      ("max_tokens", .whole maxTokens)]

/-- What is sent for a prompt, if anything is. -/
def request? (p : Provider) (prompt : String) (maxTokens : Int) : Option Request :=
  if p.vendor.needsKey && !p.key.holds then none
  else some ⟨p.endpoint, p.headers, p.payload prompt maxTokens, timeout⟩

/-- The message of an answer, at most `depth` deep; codes from 400 to 599 are refusals. -/
def decode (depth : Nat) : Reply → Except Failure Data
  | .unreachable => .error .unreachable
  | .timedOut => .error .timedOut
  | .response status body =>
    if 400 ≤ status && status < 600 then .error (.status status)
    else (Json.read depth body.toList).mapError .json

/-- One step into a message: to a named field, or to the first item. -/
inductive Step where
  | name (s : String)
  | first

def Step.apply : Step → Data → Except Data.Mismatch (Option Data)
  | .name s => Data.atName s
  | .first => Data.atFirst

/-- Follows steps into a message; a step that leads nowhere ends at null. -/
def follow : List Step → Data → Except Data.Mismatch Data
  | [], v => .ok v
  | s :: rest, v => do
    match ← s.apply v with
    | some w => follow rest w
    | none => return .null

/-- Where the messages of a chat hold the completion. -/
def chatSteps : List Step := [.name "choices", .first, .name "message", .name "content"]

def contentSteps : List Step := [.name "content", .first, .name "text"]

/-- The completion in a message. -/
def extract (v : Vendor) (message : Data) : Except Data.Mismatch Data :=
  match v, message with
  | .ollama, .record fields => .ok (((Data.record fields).field? "response").getD .null)
  | .ollama, _ => .error .notARecord
  | .anthropic, m => follow contentSteps m
  | .openai, m => follow chatSteps m
  | .groq, m => follow chatSteps m

/-- Asks for a completion. Null stands for none: nothing was sent, the service did not answer, or
its message holds no completion. A message that is too deep is a failure. -/
def complete (p : Provider) (post : Transport) (prompt : String) (maxTokens : Int)
    (depth : Nat := Json.maxDepth) : Traced Data :=
  match p.request? prompt maxTokens with
  | none => return .null
  | some r => do
    Traced.report (.request r)
    match decode depth (post r) with
    | .error (.json .tooDeep) => Traced.fail (.json .tooDeep)
    | .error e =>
      Traced.note (.requestFailed p.vendor.label e)
      return .null
    | .ok message =>
      if message.holds then Traced.ofExcept ((extract p.vendor message).mapError .shape)
      else return .null

end Provider

end OutlineIndex
