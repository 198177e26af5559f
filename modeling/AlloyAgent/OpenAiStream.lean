import AlloyAgent.LlmStream
import AlloyAgent.OpenAiMessages

/-!
# The answers of an OpenAI provider

The `stream` of `drivers/openai.rs` reads lines of the form `data: ...` and accumulates what the
JSON on them adds to the answer, in `Accum`. What it returns is a function of the deltas alone
(`stream_of_deltas`).

`parse` is `serde_json::from_str` into a `Value`.
-/

namespace AlloyAgent.OpenAi

open List RustStr Delimited

/-- Why the answer ends: both decoders have this table. -/
def stopReason (finishReason : Option String) (hasToolCalls : Bool) : StopReason :=
  match finishReason with
  | some "stop" => .endTurn
  | some "tool_calls" => .toolUse
  | some "length" => .maxTokens
  | _ => if hasToolCalls then .toolUse else .endTurn

section

variable (parse : String → Option Json)

/-- The input of a tool: what does not parse is `null`. -/
def parseInput (arguments : String) : Json := (parse arguments).getD .null

end

structure ToolAccum where
  id : String
  name : String
  arguments : String

def ToolAccum.empty : ToolAccum := ⟨"", "", ""⟩

structure Accum where
  textContent : String
  toolAccum : List ToolAccum
  finishReason : Option String
  usage : TokenUsage
  sent : List StreamEvent

def Accum.init : Accum := ⟨"", [], none, .none, []⟩

def Accum.send (acc : Accum) (event : StreamEvent) : Accum :=
  { acc with sent := acc.sent ++ [event] }

def index (call : Json) : ℕ := (call.field "index").asU64?.getD 0

def id? (call : Json) : Option String := (call.field "id").asStr?

def name? (call : Json) : Option String :=
  (call.get? "function").bind fun func => (func.field "name").asStr?

def arguments? (call : Json) : Option String :=
  (call.get? "function").bind fun func => (func.field "arguments").asStr?

/-- `tool_accum` with an entry at the index. -/
def padded (idx : ℕ) (tools : List ToolAccum) : List ToolAccum :=
  tools ++ List.replicate (idx + 1 - tools.length) .empty

def Accum.setId (acc : Accum) (idx : ℕ) : Option String → Accum
  | some id => { acc with toolAccum := acc.toolAccum.modify idx ({ · with id := id }) }
  | none => acc

/-- The start of a tool use is sent with the name. -/
def Accum.setName (acc : Accum) (idx : ℕ) : Option String → Accum
  | some name =>
    let acc := { acc with toolAccum := acc.toolAccum.modify idx ({ · with name := name }) }
    acc.send (.toolUseStart (acc.toolAccum.getD idx .empty).id name)
  | none => acc

def Accum.addArguments (acc : Accum) (idx : ℕ) : Option String → Accum
  | some args =>
    let acc := { acc with
      toolAccum := acc.toolAccum.modify idx fun tool =>
        { tool with arguments := tool.arguments ++ args } }
    if args.isEmpty then acc else acc.send (.toolInputDelta args)
  | none => acc

def Accum.addCall (acc : Accum) (call : Json) : Accum :=
  let idx := index call
  (({ acc with toolAccum := padded idx acc.toolAccum }.setId idx (id? call)).setName idx
    (name? call)).addArguments idx (arguments? call)

def contentText? (choice : Json) : Option String := ((choice.field "delta").field "content").asStr?

def callDeltas (choice : Json) : List Json :=
  ((choice.field "delta").field "tool_calls").asArray?.getD []

def finish? (choice : Json) : Option String := (choice.field "finish_reason").asStr?

def Accum.addText (acc : Accum) (text : String) : Accum :=
  if text.isEmpty then acc
  else { acc with textContent := acc.textContent ++ text }.send (.textDelta text)

def Accum.addChoice (acc : Accum) (choice : Json) : Accum :=
  let acc := match contentText? choice with
    | some text => acc.addText text
    | none => acc
  let acc := (callDeltas choice).foldl Accum.addCall acc
  { acc with finishReason := (finish? choice).or acc.finishReason }

def choices (json : Json) : List Json := (json.field "choices").asArray?.getD []

def promptTokens? (json : Json) : Option ℕ :=
  (json.get? "usage").bind fun u => (u.field "prompt_tokens").asU64?

def completionTokens? (json : Json) : Option ℕ :=
  (json.get? "usage").bind fun u => (u.field "completion_tokens").asU64?

def Accum.addDelta (acc : Accum) (json : Json) : Accum :=
  let usage := ⟨(promptTokens? json).getD acc.usage.inputTokens,
    (completionTokens? json).getD acc.usage.outputTokens⟩
  (choices json).foldl Accum.addChoice { acc with usage := usage }

section

variable (parse : String → Option Json)

def delta? (line : List Char) : Option Json :=
  let line := trimEnd line
  if line.isEmpty || [':'].isPrefixOf line then none
  else
    match stripPrefix? "data: ".toList line with
    | none => none
    | some data => if data = "[DONE]".toList then none else parse (String.ofList data)

def Accum.addLine (acc : Accum) (line : List Char) : Accum :=
  match delta? parse line with
  | some json => acc.addDelta json
  | none => acc

def Accum.toolCalls (acc : Accum) : List ToolCall :=
  acc.toolAccum.map fun tool => ⟨tool.id, tool.name, parseInput parse tool.arguments⟩

/-- The end of the stream: the events that have been sent and the response. -/
def Accum.finish (acc : Accum) : List StreamEvent × CompletionResponse :=
  let toolCalls := acc.toolCalls parse
  let stopReason := stopReason acc.finishReason !toolCalls.isEmpty
  (acc.sent ++ toolCalls.map (fun call => .toolUseEnd call.id call.name call.input) ++
      [.contentComplete stopReason acc.usage],
    { content := textBlock acc.textContent ++ toolCalls.map ToolCall.block
      stopReason := stopReason
      toolCalls := toolCalls
      usage := acc.usage })

def stream (chunks : List (List UInt8)) : List StreamEvent × CompletionResponse :=
  (receiveBytes '\n' [] (Accum.addLine parse) .init chunks).finish parse

def deltas (chunks : List (List UInt8)) : List Json :=
  (recordsOfBytes '\n' [] chunks).filterMap (delta? parse)

end

variable {parse : String → Option Json} {chunks : List (List UInt8)}

theorem foldl_addLine (lines : List (List Char)) (acc : Accum) :
    lines.foldl (Accum.addLine parse) acc =
      (lines.filterMap (delta? parse)).foldl Accum.addDelta acc := by
  rw [foldl_filterMap]
  refine foldl_ext _ _ _ fun acc line _ => ?_
  rw [Accum.addLine]
  cases delta? parse line <;> rfl

theorem stream_of_deltas (h : deltas parse chunks = ds) :
    stream parse chunks = (ds.foldl Accum.addDelta .init).finish parse := by
  rw [stream, receiveBytes_eq, foldl_addLine, ← h, deltas]

theorem deltas_line (hseen : chunks.flatMap Utf8.fromUtf8Lossy = "data: ".toList ++ data ++ ['\n'])
    (hline : '\n' ∉ data) (htrim : trimEnd ("data: ".toList ++ data) = "data: ".toList ++ data)
    (hdone : data ≠ "[DONE]".toList) (hparse : parse (String.ofList data) = some json) :
    deltas parse chunks = [json] := by
  have hline' : '\n' ∉ "data: ".toList ++ data := by
    rw [mem_append, not_or]
    exact ⟨by decide, hline⟩
  have hdelta : delta? parse ("data: ".toList ++ data) = some json := by
    have hcomment : ¬ (("data: ".toList ++ data).isEmpty ||
        [':'].isPrefixOf ("data: ".toList ++ data)) = true := Bool.false_ne_true
    rw [delta?, htrim, if_neg hcomment, stripPrefix?_append]
    dsimp only
    rw [if_neg hdone, hparse]
  rw [deltas, recordsOfBytes, hseen, records_singleton hline', filterMap_cons, hdelta,
    filterMap_nil]

end AlloyAgent.OpenAi
