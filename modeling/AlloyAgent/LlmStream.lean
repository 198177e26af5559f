import AlloyAgent.AgentLoop
import AlloyAgent.Delimited

/-!
# Streamed answers

What the drivers of `openfang-runtime/src/drivers` share: the accessors of `serde_json::Value`, the
events that a driver sends while an answer arrives, and the blocks of a response.
-/

namespace AlloyAgent

namespace Json

def get? (key : String) : Json → Option Json
  | .object fields => fields.lookup key
  | _ => none

def field (key : String) (value : Json) : Json := (value.get? key).getD .null

def asStr? : Json → Option String
  | .string s => some s
  | _ => none

def asU64? : Json → Option ℕ
  | .number (.int n) => if 0 ≤ n then some n.toNat else none
  | _ => none

def asArray? : Json → Option (List Json)
  | .array items => some items
  | _ => none

end Json

/-- Events emitted during streaming LLM completion. -/
inductive StreamEvent where
  | textDelta (text : String)
  | toolUseStart (id name : String)
  | toolInputDelta (text : String)
  /-- a tool use block is complete with parsed input -/
  | toolUseEnd (id name : String) (input : Json)
  | contentComplete (stopReason : StopReason) (usage : TokenUsage)

def TokenUsage.none : TokenUsage := ⟨0, 0⟩

/-- The block for a text, which is left out if it is empty. -/
def textBlock (text : String) : List ContentBlock := if text.isEmpty then [] else [.text text]

def ToolCall.block (call : ToolCall) : ContentBlock := .toolUse call.id call.name call.input

end AlloyAgent
