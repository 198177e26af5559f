import AlloyAgent.ContextBudget
import AlloyAgent.ContextOverflow
import AlloyAgent.SessionRepair

/-!
# The agent loop

`run_agent_loop` of `openfang-runtime/src/agent_loop.rs`. What the loop calls (the model, the loop
guard, the hooks, the tools, the session store) is a record of functions on an arbitrary state of
the world, `Services`: it can answer anything, also depending on all that happened before.

* `callWithRetry`, `prepare`, `executeCall`: the parts of one iteration;
* `runLoop`: the loop, which `RequestPairing` and `RequestDialogue` are about.
-/

namespace AlloyAgent

structure ToolCall where
  id : String
  name : String
  input : Json

structure TokenUsage where
  inputTokens : ℕ
  outputTokens : ℕ

structure CompletionRequest where
  model : String
  messages : List Message
  tools : List ToolDefinition
  maxTokens : ℕ
  temperature : BitVec 32
  system : Option String

structure CompletionResponse where
  content : List ContentBlock
  stopReason : StopReason
  toolCalls : List ToolCall
  usage : TokenUsage

def CompletionResponse.text (r : CompletionResponse) : String :=
  String.join <| r.content.filterMap fun b =>
    match b with
    | .text t => some t
    | _ => none

inductive LlmError : Type where
  | http (e : String)
  | api (status : ℕ) (message : String)
  | rateLimited (retryAfterMs : ℕ)
  | parse (e : String)
  | missingApiKey (e : String)
  | overloaded (retryAfterMs : ℕ)

inductive OpenFangError : Type where
  | llmDriver (e : String)
  | memory (e : String)
  | internal (e : String)
  | maxIterationsExceeded (n : ℕ)
  deriving DecidableEq

structure ReplyDirectives where
  replyTo : Option String
  currentThread : Bool
  silent : Bool

inductive LoopGuardVerdict : Type where
  | allow
  | warn (msg : String)
  | block (msg : String)
  | circuitBreak (msg : String)

structure AgentLoopResult where
  response : String
  totalUsage : TokenUsage
  iterations : ℕ
  silent : Bool
  directives : ReplyDirectives

namespace AgentLoop

/-- What the loop is called with, apart from the session and the message. -/
structure Manifest where
  model : String
  maxTokens : ℕ
  temperature : BitVec 32
  /-- system prompt, with the recalled memories -/
  systemPrompt : String
  availableTools : List ToolDefinition
  /-- `max_iterations` of the autonomous configuration -/
  autonomous : Option ℕ
  contextWindowTokens : Option ℕ

def Manifest.maxIterations (manifest : Manifest) : ℕ := manifest.autonomous.getD 50

def Manifest.ctxWindow (manifest : Manifest) : ℕ := manifest.contextWindowTokens.getD 200000

/-- What the loop calls. -/
structure Services (ω : Type) where
  complete : ω → CompletionRequest → Except LlmError CompletionResponse × ω
  userMessage : LlmError → String
  /-- `recover_text_tool_calls`; the ids of the calls are new -/
  recoverTextToolCalls : ω → String → List ToolDefinition → List ToolCall × ω
  parseDirectives : String → String × ReplyDirectives
  check : ω → String → Json → LoopGuardVerdict × ω
  /-- the hook `BeforeToolCall`; an error blocks the call -/
  beforeToolCall : ω → String → Json → Except String Unit × ω
  /-- `execute_tool`: content and error flag, `none` after the timeout -/
  executeTool : ω → ToolCall → Option (String × Bool) × ω
  saveSession : ω → List Message → Except String Unit × ω
  toJson : Json → Option String

structure LoopState (ω : Type) where
  world : ω
  session : List Message
  messages : List Message
  totalUsage : TokenUsage
  consecutiveMaxTokens : ℕ
  requests : List CompletionRequest

inductive Exit : Type where
  | returned (result : Except OpenFangError AgentLoopResult)
  | panicked

variable {ω : Type} (svc : Services ω) (manifest : Manifest)

/-- Save the session; the caller decides what a failure means. -/
def saveSession (st : LoopState ω) : Except String Unit × LoopState ω :=
  let (saved, world) := svc.saveSession st.world st.session
  (saved, { st with world })

/-- Save the session (a failure is only logged) and return. -/
def exitWith (result : Except OpenFangError AgentLoopResult) (st : LoopState ω) :
    Exit × LoopState ω :=
  (.returned result, (saveSession svc st).2)

/-- Save the session and return; a failure is returned instead. -/
def saveAndReturn (result : AgentLoopResult) (st : LoopState ω) : Exit × LoopState ω :=
  match saveSession svc st with
  | (.error e, st) => (.returned (.error (.memory e)), st)
  | (.ok _, st) => (.returned (.ok result), st)

/-! ## Sending a request -/

def maxRetries : ℕ := 3

/-- The errors after which `call_with_retry` tries again, with the message after the last retry. -/
def retryable : LlmError → Option String
  | .rateLimited _ => some ("Rate limited after " ++ toString maxRetries ++ " retries")
  | .overloaded _ => some ("Model overloaded after " ++ toString maxRetries ++ " retries")
  | _ => none

/-- `call_with_retry`, with so many retries left. -/
def callWithRetry (request : CompletionRequest) :
    ℕ → LoopState ω → Except OpenFangError CompletionResponse × LoopState ω
  | left, st =>
    let (answer, world) := svc.complete st.world request
    let st := { st with world, requests := st.requests ++ [request] }
    match answer with
    | .ok response => (.ok response, st)
    | .error e =>
      match retryable e, left with
      | some _, left + 1 => callWithRetry request left st
      | some msg, 0 => (.error (.llmDriver msg), st)
      | none, _ => (.error (.llmDriver (svc.userMessage e)), st)

/-- The messages of the next request: recovered from overflow and compacted. -/
def prepare (messages : List Message) : Option (List Message) := do
  let (_, messages) ← ContextOverflow.recoverFromOverflow svc.toJson messages
    manifest.systemPrompt manifest.availableTools manifest.ctxWindow
  let (messages, _) ← ContextBudget.applyContextGuard messages (.new manifest.ctxWindow)
  return messages

def request (messages : List Message) : CompletionRequest where
  model := manifest.model
  messages := messages
  tools := manifest.availableTools
  maxTokens := manifest.maxTokens
  temperature := manifest.temperature
  system := some manifest.systemPrompt

def toolUseBlock (call : ToolCall) : ContentBlock := .toolUse call.id call.name call.input

/-- Tool calls that the model has written as text count as tool use. -/
def promoteTextCalls (response : CompletionResponse) (world : ω) : CompletionResponse × ω :=
  if (response.stopReason = .endTurn ∨ response.stopReason = .stopSequence) ∧
      response.toolCalls.isEmpty then
    let (recovered, world) :=
      svc.recoverTextToolCalls world response.text manifest.availableTools
    if recovered.isEmpty then (response, world)
    else
      ({ response with
        toolCalls := recovered
        stopReason := .toolUse
        content := recovered.map toolUseBlock }, world)
  else (response, world)

/-! ## The model is done -/

def trimmed (text : String) : String := String.ofList (RustStr.trim text.toList)

def emptyResponse (iteration : ℕ) : String :=
  if 0 < iteration then
    "[Task completed — the agent executed tools but did not produce a text summary.]"
  else
    "[The model returned an empty response. This usually means the model is overloaded, " ++
      "the context is too large, or the API key lacks credits. Try again or check /status.]"

def noDirectives : ReplyDirectives := ⟨none, false, false⟩

def endTurn (iteration : ℕ) (response : CompletionResponse) (st : LoopState ω) :
    Except (Exit × LoopState ω) (LoopState ω) :=
  let (text, directives) := svc.parseDirectives response.text
  if trimmed text = "NO_REPLY" ∨ directives.silent then
    .error <| saveAndReturn svc
      ⟨"", st.totalUsage, iteration + 1, true, { directives with silent := true }⟩
      { st with session := st.session ++ [.ofAssistant "[no reply needed]"] }
  else if trimmed text = "" ∧ iteration = 0 ∧ response.toolCalls.isEmpty then
    -- one more try if the first response is empty
    .ok { st with messages := st.messages ++
      [.ofAssistant "[no response]", .ofUser "Please provide your response."] }
  else
    let text := if trimmed text = "" then emptyResponse iteration else text
    .error <| saveAndReturn svc
      ⟨text, st.totalUsage, iteration + 1, false, noDirectives⟩
      { st with session :=
        SessionRepair.pruneHeartbeatTurns (st.session ++ [.ofAssistant text]) 10 }

/-! ## The model calls tools -/

/-- Execute a call that the guard and the hooks let pass. -/
def executeCall (call : ToolCall) (warning : Option String) (st : LoopState ω) :
    Except (Exit × LoopState ω) (ContentBlock × LoopState ω) :=
  let (outcome, world) := svc.executeTool st.world call
  let st := { st with world }
  let (content, isError) :=
    outcome.getD ("Tool '" ++ call.name ++ "' timed out after 120s.", true)
  match ContextBudget.truncateToolResultDynamic content (.new manifest.ctxWindow) with
  | none => .error (.panicked, st)
  | some content =>
    let content :=
      match warning with
      | some msg => content ++ "\n\n[LOOP GUARD] " ++ msg
      | none => content
    .ok (.toolResult call.id content isError, st)

/-- Fire the hook, which can block the execution. -/
def hookedCall (call : ToolCall) (warning : Option String) (st : LoopState ω) :
    Except (Exit × LoopState ω) (ContentBlock × LoopState ω) :=
  match svc.beforeToolCall st.world call.name call.input with
  | (.error reason, world) =>
    .ok (.toolResult call.id ("Hook blocked tool '" ++ call.name ++ "': " ++ reason) true,
      { st with world })
  | (.ok _, world) => executeCall svc manifest call warning { st with world }

def runToolCall (call : ToolCall) (st : LoopState ω) :
    Except (Exit × LoopState ω) (ContentBlock × LoopState ω) :=
  let (verdict, world) := svc.check st.world call.name call.input
  let st := { st with world }
  match verdict with
  | .circuitBreak msg => .error (exitWith svc (.error (.internal msg)) st)
  | .block msg => .ok (.toolResult call.id msg true, st)
  | .warn msg => hookedCall svc manifest call (some msg) st
  | .allow => hookedCall svc manifest call none st

def runToolCalls : List ToolCall → LoopState ω →
    Except (Exit × LoopState ω) (List ContentBlock × LoopState ω)
  | [], st => .ok ([], st)
  | call :: calls, st => do
    let (block, st) ← runToolCall svc manifest call st
    let (blocks, st) ← runToolCalls calls st
    return (block :: blocks, st)

def push (msg : Message) (st : LoopState ω) : LoopState ω :=
  { st with session := st.session ++ [msg], messages := st.messages ++ [msg] }

def toolUse (response : CompletionResponse) (st : LoopState ω) :
    Except (Exit × LoopState ω) (LoopState ω) := do
  let st := push ⟨.assistant, .blocks response.content⟩ { st with consecutiveMaxTokens := 0 }
  let (blocks, st) ← runToolCalls svc manifest response.toolCalls st
  return (saveSession svc (push ⟨.user, .blocks blocks⟩ st)).2

/-! ## The model ran out of tokens -/

/-- Consecutive continuations before a partial response is returned. -/
def maxContinuations : ℕ := 5

def maxTokens (iteration : ℕ) (response : CompletionResponse) (st : LoopState ω) :
    Except (Exit × LoopState ω) (LoopState ω) :=
  let st := { st with consecutiveMaxTokens := st.consecutiveMaxTokens + 1 }
  if maxContinuations ≤ st.consecutiveMaxTokens then
    let text :=
      if trimmed response.text = "" then
        "[Partial response — token limit reached with no text output.]"
      else response.text
    .error <| exitWith svc (.ok ⟨text, st.totalUsage, iteration + 1, false, noDirectives⟩)
      { st with session := st.session ++ [.ofAssistant text] }
  else .ok (push (.ofUser "Please continue.") (push (.ofAssistant response.text) st))

/-- What follows, by the reason for which the model stopped. -/
def respond (iteration : ℕ) (response : CompletionResponse) (st : LoopState ω) :
    Except (Exit × LoopState ω) (LoopState ω) :=
  match response.stopReason with
  | .endTurn | .stopSequence => endTurn svc iteration response st
  | .toolUse => toolUse svc manifest response st
  | .maxTokens => maxTokens svc iteration response st

def receive (response : CompletionResponse) (st : LoopState ω) :
    CompletionResponse × LoopState ω :=
  let totalUsage := ⟨st.totalUsage.inputTokens + response.usage.inputTokens,
    st.totalUsage.outputTokens + response.usage.outputTokens⟩
  let (response, world) := promoteTextCalls svc manifest response st.world
  (response, { st with world, totalUsage })

/-- One iteration: prepare, send and respond. -/
def iterate (iteration : ℕ) (st : LoopState ω) : Except (Exit × LoopState ω) (LoopState ω) :=
  match prepare svc manifest st.messages with
  | none => .error (.panicked, st)
  | some messages =>
    match callWithRetry svc (request manifest messages) maxRetries { st with messages } with
    | (.error e, st) => .error (.returned (.error e), st)
    | (.ok response, st) =>
      let (response, st) := receive svc manifest response st
      respond svc manifest iteration response st

/-- The loop, with so many iterations left. -/
def runLoop : ℕ → ℕ → LoopState ω → Exit × LoopState ω
  | 0, _, st => exitWith svc (.error (.maxIterationsExceeded manifest.maxIterations)) st
  | left + 1, iteration, st =>
    match iterate svc manifest iteration st with
    | .error r => r
    | .ok st => runLoop left (iteration + 1) st

def maxHistoryMessages : ℕ := 20

/-- The history for the model: without system messages, repaired, trimmed. -/
def initialMessages (session : List Message) : List Message :=
  let messages := SessionRepair.validateAndRepair (session.filter fun m => m.role ≠ .system)
  messages.drop (messages.length - maxHistoryMessages)

def initialState (session : List Message) (userMessage : String) (world : ω) : LoopState ω where
  world := world
  session := session ++ [.ofUser userMessage]
  messages := initialMessages (session ++ [.ofUser userMessage])
  totalUsage := ⟨0, 0⟩
  consecutiveMaxTokens := 0
  requests := []

@[simp] theorem initialState_messages (session : List Message) (userMessage : String) (world : ω) :
    (initialState session userMessage world).messages =
      initialMessages (session ++ [.ofUser userMessage]) := by
  simp only [initialState]

@[simp] theorem initialState_requests (session : List Message) (userMessage : String) (world : ω) :
    (initialState session userMessage world).requests = [] := by
  simp only [initialState]

/-- Run the agent execution loop for a single user message. -/
def runAgentLoop (session : List Message) (userMessage : String) (world : ω) :
    Exit × LoopState ω :=
  runLoop svc manifest manifest.maxIterations 0 (initialState session userMessage world)

end AgentLoop

end AlloyAgent
