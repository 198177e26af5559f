import AlloyAgent.GeminiStream

/-!
# Packet boundaries

`AnthropicDriver::stream` of `drivers/anthropic.rs`, and with it what the stream loops of the three
drivers have in common.

* `packets_irrelevant`: this holds for as long as no packet cuts a character.
-/

namespace AlloyAgent

open RustStr Delimited Utf8

namespace Anthropic

/-- Accumulator for content blocks during streaming. -/
inductive ContentBlockAccum where
  | text (text : String)
  | thinking (thinking : String)
  | toolUse (id name inputJson : String)

namespace ContentBlockAccum

def addText (t : String) : ContentBlockAccum → ContentBlockAccum
  | .text old => .text (old ++ t)
  | block => block

def addThinking (t : String) : ContentBlockAccum → ContentBlockAccum
  | .thinking old => .thinking (old ++ t)
  | block => block

def addInput (partialJson : String) : ContentBlockAccum → ContentBlockAccum
  | .toolUse id name old => .toolUse id name (old ++ partialJson)
  | block => block

end ContentBlockAccum

structure Accum where
  blocks : List ContentBlockAccum
  stopReason : StopReason
  usage : TokenUsage
  sent : List StreamEvent

def Accum.init : Accum := ⟨[], .endTurn, .none, []⟩

def Accum.send (acc : Accum) (event : StreamEvent) : Accum :=
  { acc with sent := acc.sent ++ [event] }

def Accum.push (acc : Accum) (block : ContentBlockAccum) : Accum :=
  { acc with blocks := acc.blocks ++ [block] }

def Accum.modifyLast (acc : Accum) (f : ContentBlockAccum → ContentBlockAccum) : Accum :=
  { acc with blocks := acc.blocks.modify (acc.blocks.length - 1) f }

def strField (key : String) (value : Json) : String := (value.field key).asStr?.getD ""

def Accum.messageStart (acc : Accum) (json : Json) : Accum :=
  match (((json.field "message").field "usage").field "input_tokens").asU64? with
  | some tokens => { acc with usage := { acc.usage with inputTokens := tokens } }
  | none => acc

def Accum.blockStart (acc : Accum) (json : Json) : Accum :=
  let block := json.field "content_block"
  match strField "type" block with
  | "text" => acc.push (.text "")
  | "tool_use" =>
    let id := strField "id" block
    let name := strField "name" block
    (acc.send (.toolUseStart id name)).push (.toolUse id name "")
  | "thinking" => acc.push (.thinking "")
  | _ => acc

/-- `content_block_delta`. The text and the input are sent whatever the last block is. -/
def Accum.blockDelta (acc : Accum) (json : Json) : Accum :=
  let delta := json.field "delta"
  match strField "type" delta with
  | "text_delta" =>
    match (delta.field "text").asStr? with
    | some text => (acc.modifyLast (.addText text)).send (.textDelta text)
    | none => acc
  | "input_json_delta" =>
    match (delta.field "partial_json").asStr? with
    | some input => (acc.modifyLast (.addInput input)).send (.toolInputDelta input)
    | none => acc
  | "thinking_delta" =>
    match (delta.field "thinking").asStr? with
    | some thinking => acc.modifyLast (.addThinking thinking)
    | none => acc
  | _ => acc

def stopReasonOf : String → StopReason
  | "end_turn" => .endTurn
  | "tool_use" => .toolUse
  | "max_tokens" => .maxTokens
  | "stop_sequence" => .stopSequence
  | _ => .endTurn

def Accum.messageDelta (acc : Accum) (json : Json) : Accum :=
  let acc := match ((json.field "delta").field "stop_reason").asStr? with
    | some reason => { acc with stopReason := stopReasonOf reason }
    | none => acc
  match ((json.field "usage").field "output_tokens").asU64? with
  | some tokens => { acc with usage := { acc.usage with outputTokens := tokens } }
  | none => acc

section

variable (parse : String → Option Json)

/-- The input of a tool: what does not parse is `null`. -/
def parseInput (inputJson : String) : Json := (parse inputJson).getD .null

def Accum.blockStop (acc : Accum) : Accum :=
  match acc.blocks.getLast? with
  | some (.toolUse id name inputJson) => acc.send (.toolUseEnd id name (parseInput parse inputJson))
  | _ => acc

/-- The type and the data of an event: the last line of either kind. -/
def typeAndData (event : List Char) : List Char × List Char :=
  (lines event).foldl (fun found line =>
    match stripPrefix? "event: ".toList line with
    | some eventType => (eventType, found.2)
    | none =>
      match stripPrefix? "data: ".toList line with
      | some data => (found.1, data)
      | none => found) ([], [])

def Accum.addEvent (acc : Accum) (event : List Char) : Accum :=
  let (eventType, data) := typeAndData event
  if data.isEmpty then acc
  else
    match parse (String.ofList data) with
    | none => acc
    | some json =>
      match String.ofList eventType with
      | "message_start" => acc.messageStart json
      | "content_block_start" => acc.blockStart json
      | "content_block_delta" => acc.blockDelta json
      | "content_block_stop" => acc.blockStop parse
      | "message_delta" => acc.messageDelta json
      | _ => acc

def ContentBlockAccum.finish : ContentBlockAccum → ContentBlock × Option ToolCall
  | .text t => (.text t, none)
  | .thinking t => (.thinking t, none)
  | .toolUse id name inputJson =>
    let call := ⟨id, name, parseInput parse inputJson⟩
    (call.block, some call)

def Accum.finish (acc : Accum) : List StreamEvent × CompletionResponse :=
  let finished := acc.blocks.map (ContentBlockAccum.finish parse)
  (acc.sent ++ [.contentComplete acc.stopReason acc.usage],
    { content := finished.map Prod.fst
      stopReason := acc.stopReason
      toolCalls := finished.filterMap Prod.snd
      usage := acc.usage })

def stream (chunks : List (List UInt8)) : List StreamEvent × CompletionResponse :=
  (receiveBytes '\n' ['\n'] (Accum.addEvent parse) .init chunks).finish parse

end

end Anthropic

/-! ## The three drivers -/

/-- **Packets that do not cut a character make no difference.** -/
theorem packets_irrelevant (parse : String → Option Json)
    (parseResponse : String → Option Gemini.GeminiResponse) (toJson : Json → Option String)
    (newId : ℕ → String) {text : List Char} {chunks : List (List UInt8)}
    (hbytes : chunks.flatten = encode text) :
    (chunks.flatMap fromUtf8Lossy = text ↔ ∀ chunk ∈ chunks, Begins chunk) ∧
    ((∀ chunk ∈ chunks, Begins chunk) →
      OpenAi.stream parse chunks = OpenAi.stream parse [encode text] ∧
      Anthropic.stream parse chunks = Anthropic.stream parse [encode text] ∧
      Gemini.stream toJson newId parseResponse chunks =
        Gemini.stream toJson newId parseResponse [encode text]) := by
  refine ⟨flatMap_fromUtf8Lossy_eq_iff hbytes, fun hbegins => ?_⟩
  have hlines := @recordsOfBytes_eq '\n' [] text chunks hbytes hbegins
  have hevents := @recordsOfBytes_eq '\n' ['\n'] text chunks hbytes hbegins
  refine ⟨?_, ?_, ?_⟩
  · rw [OpenAi.stream, OpenAi.stream, receiveBytes_eq, receiveBytes_eq, hlines]
  · rw [Anthropic.stream, Anthropic.stream, receiveBytes_eq, receiveBytes_eq, hevents]
  · rw [Gemini.stream, Gemini.stream, receiveBytes_eq, receiveBytes_eq, hevents]

def contentStart : List Char := "\x7b\"choices\":[\x7b\"delta\":\x7b\"content\":\"".toList

def contentEnd : List Char := "\"\x7d\x7d]\x7d".toList

def contentData (text : List Char) : List Char := contentStart ++ text ++ contentEnd

def contentDelta (text : String) : Json :=
  .object [("choices", .array [.object [("delta", .object [("content", .string text)])]])]

theorem packets_of_whole_letters :
    OpenAi.stream (fun data => some (contentDelta data))
        [encode "data: é".toList, encode "\n".toList] =
      OpenAi.stream (fun data => some (contentDelta data)) [encode "data: é\n".toList] := by
  have hwhole := @packets_irrelevant (fun data => some (contentDelta data)) (fun _ => none)
    (fun _ => none) (fun _ => "") "data: é\n".toList
    [encode "data: é".toList, encode "\n".toList] (by decide)
  exact (hwhole.2 (by decide +kernel)).1

def cutPackets : List (List UInt8) :=
  [encode ("data: ".toList ++ contentStart) ++ [0xC3], 0xA9 :: encode (contentEnd ++ ['\n'])]

/-- The letter arrives as two replacement characters. -/
theorem accent_cut :
    cutPackets.flatten = encode ("data: ".toList ++ contentData ['é'] ++ ['\n']) ∧
    ∀ parse : String → Option Json,
      parse (String.ofList (contentData ['é'])) = some (contentDelta "é") →
      parse (String.ofList (contentData ['�', '�'])) = some (contentDelta "��") →
      (OpenAi.stream parse cutPackets).1 =
        [.textDelta "��", .contentComplete .endTurn .none] ∧
      (OpenAi.stream parse [cutPackets.flatten]).1 =
        [.textDelta "é", .contentComplete .endTurn .none] := by
  have hflatten : cutPackets.flatten = encode ("data: ".toList ++ contentData ['é'] ++ ['\n']) := by
    decide
  have hseen : cutPackets.flatMap fromUtf8Lossy =
      "data: ".toList ++ contentData ['�', '�'] ++ ['\n'] := by
    decide
  refine ⟨hflatten, fun parse hwhole hcut => ⟨?_, ?_⟩⟩
  · rw [OpenAi.stream_of_deltas (OpenAi.deltas_line hseen (by decide) (by decide) (by decide) hcut)]
    rfl
  · have hseen' : [cutPackets.flatten].flatMap fromUtf8Lossy =
        "data: ".toList ++ contentData ['é'] ++ ['\n'] := by
      rw [List.flatMap_singleton, hflatten, fromUtf8Lossy_encode]
    rw [OpenAi.stream_of_deltas
      (OpenAi.deltas_line hseen' (by decide) (by decide) (by decide) hwhole)]
    rfl

end AlloyAgent
