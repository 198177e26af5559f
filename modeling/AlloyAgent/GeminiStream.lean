import AlloyAgent.OpenAiStream

/-!
# The answers of Gemini

The `stream` of `drivers/gemini.rs` reads events that are separated by an empty line and that hold a
response each, and accumulates the parts of their candidates, in `Accum`.

`parse` is `serde_json::from_str` into a `GeminiResponse`, `newId` the source of the ids of tool
calls.

* `packets_irrelevant` of `AnthropicStream` covers it.
-/

namespace AlloyAgent.Gemini

open List RustStr Delimited

inductive GeminiPart where
  | text (text : String)
  | inlineData (mimeType data : String)
  | functionCall (name : String) (args : Json)
  | functionResponse (name : String) (response : Json)

structure GeminiContent where
  parts : List GeminiPart

structure GeminiCandidate where
  content : Option GeminiContent
  finishReason : Option String

structure GeminiUsageMetadata where
  promptTokenCount : ℕ
  candidatesTokenCount : ℕ

structure GeminiResponse where
  candidates : List GeminiCandidate
  usageMetadata : Option GeminiUsageMetadata

def GeminiUsageMetadata.tokens (u : GeminiUsageMetadata) : TokenUsage :=
  ⟨u.promptTokenCount, u.candidatesTokenCount⟩

def GeminiCandidate.parts (candidate : GeminiCandidate) : List GeminiPart :=
  (candidate.content.map GeminiContent.parts).getD []

/-- What `stream` keeps while it reads, what it has sent and how many ids it has drawn. -/
structure Accum where
  textContent : String
  fnCalls : List (String × Json)
  finishReason : Option String
  usage : TokenUsage
  sent : List StreamEvent
  fresh : ℕ

def Accum.init : Accum := ⟨"", [], none, .none, [], 0⟩

def streamStopReason (finishReason : Option String) (hasToolCalls : Bool) : StopReason :=
  match finishReason with
  | some "STOP" => .endTurn
  | some "MAX_TOKENS" => .maxTokens
  | some "SAFETY" => .endTurn
  | _ => if hasToolCalls then .toolUse else .endTurn

section

variable (toJson : Json → Option String) (newId : ℕ → String)

def Accum.addPart (acc : Accum) : GeminiPart → Accum
  | .text text =>
    if text.isEmpty then acc
    else
      { acc with
        textContent := acc.textContent ++ text
        sent := acc.sent ++ [.textDelta text] }
  | .functionCall name args =>
    let id := newId acc.fresh
    { acc with
      fnCalls := acc.fnCalls ++ [(name, args)]
      sent := acc.sent ++
        [.toolUseStart id name, .toolInputDelta ((toJson args).getD ""), .toolUseEnd id name args]
      fresh := acc.fresh + 1 }
  | .inlineData .. => acc
  | .functionResponse .. => acc

def Accum.addCandidate (acc : Accum) (candidate : GeminiCandidate) : Accum :=
  candidate.parts.foldl (Accum.addPart toJson newId)
    { acc with finishReason := candidate.finishReason.or acc.finishReason }

def Accum.addDelta (acc : Accum) (response : GeminiResponse) : Accum :=
  response.candidates.foldl (Accum.addCandidate toJson newId)
    { acc with usage := (response.usageMetadata.map GeminiUsageMetadata.tokens).getD acc.usage }

variable (parse : String → Option GeminiResponse)

def delta? (event : List Char) : Option GeminiResponse :=
  let data := ((lines event).findSome? (stripPrefix? "data: ".toList)).getD []
  if data.isEmpty then none else parse (String.ofList data)

def Accum.addEvent (acc : Accum) (event : List Char) : Accum :=
  match delta? parse event with
  | some response => acc.addDelta toJson newId response
  | none => acc

/-- The end of the stream; the tool calls get new ids. -/
def Accum.finish (acc : Accum) : List StreamEvent × CompletionResponse :=
  let toolCalls := acc.fnCalls.mapIdx fun i call => ⟨newId (acc.fresh + i), call.1, call.2⟩
  let stopReason := streamStopReason acc.finishReason !toolCalls.isEmpty
  (acc.sent ++ [.contentComplete stopReason acc.usage],
    { content := textBlock acc.textContent ++ toolCalls.map ToolCall.block
      stopReason := stopReason
      toolCalls := toolCalls
      usage := acc.usage })

def stream (chunks : List (List UInt8)) : List StreamEvent × CompletionResponse :=
  (receiveBytes '\n' ['\n'] (Accum.addEvent toJson newId parse) .init chunks).finish newId

end

end AlloyAgent.Gemini
