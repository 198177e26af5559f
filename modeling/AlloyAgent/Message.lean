import AlloyAgent.RustStr

/-!
# Conversation messages

The data model of `openfang-types/src/message.rs`: a message has a role and a content, which is
either plain text or a list of typed blocks.

* `rewriteResults` changes the texts of tool results, and nothing else.
-/

namespace AlloyAgent

inductive JsonNumber : Type where
  | int : ℤ → JsonNumber
  | float : BitVec 64 → JsonNumber
  deriving DecidableEq

inductive Json : Type where
  | null : Json
  | bool : Bool → Json
  | number : JsonNumber → Json
  | string : String → Json
  | array : List Json → Json
  | object : List (String × Json) → Json

inductive Role : Type where
  | system
  | user
  | assistant
  deriving DecidableEq

/-- A content block within a message. -/
inductive ContentBlock : Type where
  | text (text : String)
  | image (mediaType data : String)
  | toolUse (id name : String) (input : Json)
  | toolResult (toolUseId content : String) (isError : Bool)
  | thinking (thinking : String)
  | unknown

inductive MessageContent : Type where
  | text (s : String)
  | blocks (bs : List ContentBlock)

/-- A message in an LLM conversation. -/
structure Message where
  role : Role
  content : MessageContent

/-- Why the LLM stopped generating. -/
inductive StopReason : Type where
  | endTurn
  | toolUse
  | maxTokens
  | stopSequence
  deriving DecidableEq

namespace ContentBlock

def toolUseId? : ContentBlock → Option String
  | toolUse id _ _ => some id
  | _ => none

def toolResultId? : ContentBlock → Option String
  | toolResult id _ _ => some id
  | _ => none

def toolResultContent? : ContentBlock → Option String
  | toolResult _ content _ => some content
  | _ => none

/-- The bytes of a block that count as text. -/
def textLength : ContentBlock → ℕ
  | text t => t.utf8ByteSize
  | toolResult _ content _ => content.utf8ByteSize
  | thinking t => t.utf8ByteSize
  | toolUse _ _ _ | image _ _ | unknown => 0

theorem toolUseId?_eq_none_of_result {b : ContentBlock} {x : String}
    (h : b.toolResultId? = some x) : b.toolUseId? = none := by
  cases b <;> simp [toolResultId?, toolUseId?] at h ⊢

end ContentBlock

namespace MessageContent

/-- The blocks of a block content; plain text has none. -/
def blockList : MessageContent → List ContentBlock
  | text _ => []
  | blocks bs => bs

def textLength : MessageContent → ℕ
  | text s => s.utf8ByteSize
  | blocks bs => (bs.map ContentBlock.textLength).sum

/-- `content_to_blocks`: plain text becomes one text block. -/
def toBlocks : MessageContent → List ContentBlock
  | text s => [.text s]
  | blocks bs => bs

/-- Neither text nor blocks. -/
def isEmpty : MessageContent → Bool
  | text s => s.isEmpty
  | blocks bs => bs.isEmpty

/-- `merge_content`: convert both to blocks, then append. -/
def merge (dst src : MessageContent) : MessageContent := blocks (dst.toBlocks ++ src.toBlocks)

end MessageContent

namespace Message

def ofUser (s : String) : Message := ⟨.user, .text s⟩

def ofAssistant (s : String) : Message := ⟨.assistant, .text s⟩

def toolUseIds (m : Message) : List String := m.content.blockList.filterMap (·.toolUseId?)

def toolResultIds (m : Message) : List String := m.content.blockList.filterMap (·.toolResultId?)

def nothing : Message := ⟨.system, .text ""⟩

variable (r : Role)

@[simp] theorem toolUseIds_text (s : String) : toolUseIds ⟨r, .text s⟩ = [] := rfl

@[simp] theorem toolResultIds_text (s : String) : toolResultIds ⟨r, .text s⟩ = [] :=
  rfl

@[simp] theorem toolUseIds_blocks (bs : List ContentBlock) :
    toolUseIds ⟨r, .blocks bs⟩ = bs.filterMap (·.toolUseId?) := rfl

@[simp] theorem toolResultIds_blocks (bs : List ContentBlock) :
    toolResultIds ⟨r, .blocks bs⟩ = bs.filterMap (·.toolResultId?) := rfl

@[simp] theorem toolUseIds_nothing : nothing.toolUseIds = [] := rfl

@[simp] theorem toolResultIds_nothing : nothing.toolResultIds = [] := rfl

theorem filterMap_toolUseId?_toBlocks (m : Message) :
    m.content.toBlocks.filterMap (·.toolUseId?) = m.toolUseIds := by
  obtain ⟨r, c⟩ := m
  cases c <;> rfl

theorem filterMap_toolResultId?_toBlocks (m : Message) :
    m.content.toBlocks.filterMap (·.toolResultId?) = m.toolResultIds := by
  obtain ⟨r, c⟩ := m
  cases c <;> rfl

theorem toolUseIds_eq_nil_of_isEmpty {m : Message} (h : m.content.isEmpty = true) :
    m.toolUseIds = [] := by
  obtain ⟨r, c⟩ := m
  cases c with
  | text s => rfl
  | blocks bs =>
    obtain rfl : bs = [] := List.isEmpty_iff.mp h
    rfl

/-! ## Rewriting tool results -/

def toolResults (ms : List Message) : List String :=
  ms.flatMap fun m => m.content.blockList.filterMap (·.toolResultContent?)

variable {σ : Type}

/-- Rewrite the content of a tool result; the other blocks stay. -/
def rewriteBlock (f : String → StateT σ Option String) :
    ContentBlock → StateT σ Option ContentBlock
  | .toolResult id content isError => do return .toolResult id (← f content) isError
  | b => pure b

def rewriteMessage (f : String → StateT σ Option String) (m : Message) :
    StateT σ Option Message :=
  match m.content with
  | .blocks bs => do return ⟨m.role, .blocks (← bs.mapM (rewriteBlock f))⟩
  | .text _ => pure m

/-- Rewrite the tool results of a history, from the oldest to the newest. -/
def rewriteResults (f : String → StateT σ Option String) (ms : List Message) :
    StateT σ Option (List Message) :=
  ms.mapM (rewriteMessage f)

end Message

end AlloyAgent
