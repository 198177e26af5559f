import AlloyAgent.AgentRouter
import AlloyAgent.RustStr

/-!
# Messages from channels

`dispatchMessage` handles one message that comes in on a channel.

* `handleCommand`, `routeText`, `dispatchMessage`, on an arbitrary kernel;
* `denied_iff`: when a message of a sender who is denied everything has no effect.
-/

namespace AlloyAgent.Channels

/-! ## Messages and policies -/

structure ChannelUser where
  platformId : String
  openfangUser : Option String
  deriving DecidableEq

/-- What is in an image, file, voice message or location is not looked at. -/
inductive ChannelContent where
  | text (text : String)
  | image | file | voice | location
  | command (name : String) (args : List String)

structure ChannelMessage where
  channel : ChannelType
  sender : ChannelUser
  content : ChannelContent
  isGroup : Bool
  threadId : Option String

inductive DmPolicy where
  | respond | allowedOnly | ignore
  deriving DecidableEq

inductive GroupPolicy where
  | all | mentionOnly | commandsOnly | ignore
  deriving DecidableEq

inductive OutputFormat where
  | markdown | telegramHtml | slackMrkdwn | plainText
  deriving DecidableEq

structure ChannelOverrides where
  dmPolicy : DmPolicy
  groupPolicy : GroupPolicy
  rateLimitPerUser : ℕ
  threading : Bool
  outputFormat : Option OutputFormat

/-- Only slash commands and `ChannelContent::Command`. -/
def ChannelContent.isCommand : ChannelContent → Bool
  | .command _ _ => true
  | .text t => t.toList.head? = some '/'
  | _ => false

def ChannelOverrides.policyAllows (ov : ChannelOverrides) (message : ChannelMessage) : Bool :=
  if message.isGroup then
    match ov.groupPolicy with
    | .ignore => false
    | .commandsOnly => message.content.isCommand
    | .mentionOnly => true
    | .all => true
  else
    match ov.dmPolicy with
    | .ignore => false
    | .allowedOnly => true -- relies on the authorisation of texts
    | .respond => true

/-- Message timestamps per user. -/
structure ChannelRateLimiter where
  buckets : Table String (List ℕ)

/-- Check if a user is rate-limited. Times are in nanoseconds. -/
def ChannelRateLimiter.check (limiter : ChannelRateLimiter) (channelType platformId : String)
    (maxPerMinute now : ℕ) : ChannelRateLimiter × Except String Unit :=
  if maxPerMinute = 0 then (limiter, .ok ())
  else
    let key := s!"{channelType}:{platformId}"
    let entry := ((limiter.buckets.lookup key).getD []).filter fun ts => now - ts < 60 * 10 ^ 9
    if entry.length ≥ maxPerMinute then
      (⟨limiter.buckets.insert key entry⟩,
        .error s!"Rate limit exceeded ({maxPerMinute} messages/minute). Please wait.")
    else (⟨limiter.buckets.insert key (entry ++ [now])⟩, .ok ())

inductive Operation where
  | sendMessage (agentId : AgentId) (message : String)
  | checkAutoReply (agentId : AgentId) (message : String)
  | recordDelivery (agentId : AgentId) (channel recipient : String) (success : Bool)
      (error : Option String)
  | spawnAgentByName (manifestName : String)
  | resetSession (agentId : AgentId)
  | compactSession (agentId : AgentId)
  | setModel (agentId : AgentId) (model : String)
  | stopRun (agentId : AgentId)
  | setThinking (agentId : AgentId) (on : Bool)
  | runWorkflowText (name input : String)
  | createTriggerText (agentName pattern prompt : String)
  | deleteTriggerText (idPrefix : String)
  | manageScheduleText (action : String) (args : List String)
  | resolveApprovalText (idPrefix : String) (approve : Bool)
  deriving DecidableEq

/-- Does the operation change something? Without an argument some of them only show. -/
def Operation.changesState : Operation → Bool
  | .setModel _ model => model ≠ ""
  | .manageScheduleText action args => if action = "add" then args.length ≥ 7 else args ≠ []
  | _ => true

/-- Lists and reports of the kernel, as text. -/
inductive Report where
  | uptime | models | providers | skills | hands | workflows | triggers | schedules | approvals
  | budget | peers | a2aAgents
  deriving DecidableEq

structure ChannelBridgeHandle (σ : Type) where
  findAgentByName : String → σ → Except String (Option AgentId)
  listAgents : σ → Except String (List (AgentId × String))
  report : Report → σ → String
  sessionUsage : AgentId → σ → Except String String
  authorizeChannelUser : String → String → String → σ → Except String Unit
  channelOverrides : String → σ → Option ChannelOverrides
  sendMessage : AgentId → String → σ → Except String String × σ
  checkAutoReply : AgentId → String → σ → Option String × σ
  recordDelivery : AgentId → String → String → Bool → Option String → σ → Unit × σ
  spawnAgentByName : String → σ → Except String AgentId × σ
  resetSession : AgentId → σ → Except String String × σ
  compactSession : AgentId → σ → Except String String × σ
  setModel : AgentId → String → σ → Except String String × σ
  stopRun : AgentId → σ → Except String String × σ
  setThinking : AgentId → Bool → σ → Except String String × σ
  runWorkflowText : String → String → σ → String × σ
  createTriggerText : String → String → String → σ → String × σ
  deleteTriggerText : String → σ → String × σ
  manageScheduleText : String → List String → σ → String × σ
  resolveApprovalText : String → Bool → σ → String × σ

structure Response where
  user : ChannelUser
  text : String
  threadId : Option String
  outputFormat : OutputFormat
  deriving DecidableEq

/-- The kernel and the router, the operations performed and what has been sent back. -/
structure World (σ : Type) where
  kernel : σ
  router : AgentRouter
  rateLimiter : ChannelRateLimiter
  operations : List Operation
  responses : List Response

variable {σ α : Type}

def World.perform (w : World σ) (op : Operation) (f : σ → α × σ) : α × World σ :=
  ((f w.kernel).1, { w with kernel := (f w.kernel).2, operations := w.operations ++ [op] })

def World.sendResponse (w : World σ) (response : Response) : World σ :=
  { w with responses := w.responses ++ [response] }

inductive Command where
  | start | help | agents | agent | status | models | providers | new | compact | model | stop
  | usage | think | skills | hands | workflows | workflow | triggers | trigger | schedules
  | schedule | approvals | approve | reject | budget | peers | a2a
  deriving DecidableEq

def commandNames : List (String × Command) :=
  [("start", .start), ("help", .help), ("agents", .agents), ("agent", .agent),
    ("status", .status), ("models", .models), ("providers", .providers), ("new", .new),
    ("compact", .compact), ("model", .model), ("stop", .stop), ("usage", .usage),
    ("think", .think), ("skills", .skills), ("hands", .hands), ("workflows", .workflows),
    ("workflow", .workflow), ("triggers", .triggers), ("trigger", .trigger),
    ("schedules", .schedules), ("schedule", .schedule), ("approvals", .approvals),
    ("approve", .approve), ("reject", .reject), ("budget", .budget), ("peers", .peers),
    ("a2a", .a2a)]

def Command.parse (name : String) : Option Command := commandNames.lookup name

def helpText : String :=
  "\n".intercalate
    ["OpenFang Bot Commands:", "", "Session:", "/agents - list running agents",
      "/agent <name> - select which agent to talk to", "/new - reset session (clear messages)",
      "/compact - trigger LLM session compaction", "/model [name] - show or switch agent model",
      "/stop - cancel current agent run", "/usage - show session token usage and cost",
      "/think [on|off] - toggle extended thinking", "", "Info:",
      "/models - list available AI models", "/providers - show configured providers",
      "/skills - list installed skills", "/hands - list available and active hands",
      "/status - show system status", "", "Automation:", "/workflows - list workflows",
      "/workflow run <name> [input] - run a workflow", "/triggers - list event triggers",
      "/trigger add <agent> <pattern> <prompt> - create trigger",
      "/trigger del <id> - remove trigger", "/schedules - list cron jobs",
      "/schedule add <agent> <cron-5-fields> <message> - create job",
      "/schedule del <id> - remove job", "/schedule run <id> - run job now",
      "/approvals - list pending approvals", "/approve <id> - approve a request",
      "/reject <id> - reject a request", "", "Monitoring:",
      "/budget - show spending limits and current costs",
      "/peers - show OFP peer network status", "/a2a - list discovered external A2A agents", "",
      "/start - show welcome message", "/help - show this help"]

def triggerUsage : String :=
  "Usage:\n  /trigger add <agent> <pattern> <prompt>\n  /trigger del <id-prefix>"

def scheduleUsage : String :=
  "Usage:\n  /schedule add <agent> <cron-5-fields> <message>\n" ++
    "  /schedule del <id-prefix>\n  /schedule run <id-prefix>"

def agentLines (agents : List (AgentId × String)) : String :=
  String.join (agents.map fun agent => "  - " ++ agent.2 ++ "\n")

/-- `unwrap_or_default()`. -/
def listed (agents : Except String (List (AgentId × String))) : List (AgentId × String) :=
  match agents with
  | .ok agents => agents
  | .error _ => []

/-- `unwrap_or_else(|e| format!("Error: {e}"))`. -/
def orError : Except String String → String
  | .ok text => text
  | .error e => s!"Error: {e}"

variable (handle : ChannelBridgeHandle σ) (debugStr : String → String)

/-- The agent to which a plain text on a channel is sent. -/
def World.textAgent (w : World σ) (channel : ChannelType) (sender : ChannelUser) :
    Option AgentId :=
  w.router.resolve debugStr channel sender.platformId sender.openfangUser

def World.currentAgent (w : World σ) (sender : ChannelUser) : Option AgentId :=
  w.router.resolve debugStr .cli sender.platformId sender.openfangUser

def World.onAgent (w : World σ) (sender : ChannelUser) (op : AgentId → Operation)
    (f : AgentId → σ → Except String String × σ) : String × World σ :=
  match w.currentAgent debugStr sender with
  | some aid =>
    let result := w.perform (op aid) (f aid)
    (orError result.1, result.2)
  | none => ("No agent selected. Use /agent <name> first.", w)

def World.usageText (w : World σ) (sender : ChannelUser) : String :=
  match w.currentAgent debugStr sender with
  | some aid => orError (handle.sessionUsage aid w.kernel)
  | none => "No agent selected. Use /agent <name> first."

/-- Select an agent, which is spawned if there is none of this name. -/
def selectAgent (agentName : String) (sender : ChannelUser) (w : World σ) : String × World σ :=
  match handle.findAgentByName agentName w.kernel with
  | .ok (some agentId) =>
    (s!"Now talking to agent: {agentName}",
      { w with router := w.router.setUserDefault sender.platformId agentId })
  | .ok none =>
    match w.perform (.spawnAgentByName agentName) (handle.spawnAgentByName agentName) with
    | (.ok agentId, w) =>
      (s!"Spawned and connected to agent: {agentName}",
        { w with router := w.router.setUserDefault sender.platformId agentId })
    | (.error e, w) => (s!"Agent '{agentName}' not found and could not spawn: {e}", w)
  | .error e => (s!"Error finding agent: {e}", w)

def agentCommand (sender : ChannelUser) (w : World σ) : List String → String × World σ
  | [] => ("Usage: /agent <name>", w)
  | agentName :: _ => selectAgent handle agentName sender w

def workflowCommand (w : World σ) : List String → String × World σ
  | action :: name :: words =>
    if action = "run" then
      let input := " ".intercalate words
      w.perform (.runWorkflowText name input) (handle.runWorkflowText name input)
    else ("Usage: /workflow run <name> [input]", w)
  | _ => ("Usage: /workflow run <name> [input]", w)

def triggerCommand (w : World σ) (args : List String) : String × World σ :=
  if args.length ≥ 4 ∧ args.head? = some "add" then
    let agentName := args.getD 1 ""
    let pattern := args.getD 2 ""
    let prompt := " ".intercalate (args.drop 3)
    w.perform (.createTriggerText agentName pattern prompt)
      (handle.createTriggerText agentName pattern prompt)
  else if args.length ≥ 2 ∧ args.head? = some "del" then
    let id := args.getD 1 ""
    w.perform (.deleteTriggerText id) (handle.deleteTriggerText id)
  else (triggerUsage, w)

def scheduleCommand (w : World σ) : List String → String × World σ
  | [] => (scheduleUsage, w)
  | action :: args =>
    if action = "add" ∨ action = "del" ∨ action = "run" then
      w.perform (.manageScheduleText action args) (handle.manageScheduleText action args)
    else (scheduleUsage, w)

def approvalCommand (w : World σ) (usage : String) (approve : Bool) :
    List String → String × World σ
  | [] => (usage, w)
  | id :: _ => w.perform (.resolveApprovalText id approve) (handle.resolveApprovalText id approve)

def Command.run (sender : ChannelUser) (w : World σ) (args : List String) :
    Command → String × World σ
  | .start =>
    let agents := listed (handle.listAgents w.kernel)
    ("Welcome to OpenFang! I connect you to AI agents.\n\nAvailable agents:\n" ++
      (if agents.isEmpty then "  (none running)\n" else agentLines agents) ++
      "\nCommands:\n/agents - list agents\n/agent <name> - select an agent\n" ++
      "/help - show this help", w)
  | .help => (helpText, w)
  | .status => (handle.report .uptime w.kernel, w)
  | .agents =>
    let agents := listed (handle.listAgents w.kernel)
    (if agents.isEmpty then "No agents running." else "Running agents:\n" ++ agentLines agents, w)
  | .agent => agentCommand handle sender w args
  | .new => w.onAgent debugStr sender .resetSession handle.resetSession
  | .compact => w.onAgent debugStr sender .compactSession handle.compactSession
  | .model =>
    let model := args.headD ""
    w.onAgent debugStr sender (.setModel · model) (handle.setModel · model)
  | .stop => w.onAgent debugStr sender .stopRun handle.stopRun
  | .usage => (w.usageText handle debugStr sender, w)
  | .think =>
    let on := args.headD "on" = "on"
    w.onAgent debugStr sender (.setThinking · on) (handle.setThinking · on)
  | .models => (handle.report .models w.kernel, w)
  | .providers => (handle.report .providers w.kernel, w)
  | .skills => (handle.report .skills w.kernel, w)
  | .hands => (handle.report .hands w.kernel, w)
  | .workflows => (handle.report .workflows w.kernel, w)
  | .workflow => workflowCommand handle w args
  | .triggers => (handle.report .triggers w.kernel, w)
  | .trigger => triggerCommand handle w args
  | .schedules => (handle.report .schedules w.kernel, w)
  | .schedule => scheduleCommand handle w args
  | .approvals => (handle.report .approvals w.kernel, w)
  | .approve => approvalCommand handle w "Usage: /approve <id-prefix>" true args
  | .reject => approvalCommand handle w "Usage: /reject <id-prefix>" false args
  | .budget => (handle.report .budget w.kernel, w)
  | .peers => (handle.report .peers w.kernel, w)
  | .a2a => (handle.report .a2aAgents w.kernel, w)

/-- Handle a bot command (returns the response text). -/
def handleCommand (name : String) (args : List String) (sender : ChannelUser) (w : World σ) :
    String × World σ :=
  match Command.parse name with
  | some command => command.run handle debugStr sender w args
  | none => (s!"Unknown command: /{name}", w)

/-- The command in a text, with its arguments, if it is one of the bot commands. -/
def textCommand? (text : String) : Option (String × List String) :=
  match text.toList with
  | '/' :: rest =>
    let cmd := String.ofList (RustStr.firstPiece [' '] rest)
    let args := (RustStr.splitOnce? [' '] rest).elim [] fun parts =>
      (RustStr.splitWhitespace parts.2).map String.ofList
    if (Command.parse cmd).isSome then some (cmd, args) else none
  | _ => none

/-- Send a text to agents, one at a time in order. -/
def sendAll (text : String) : List (String × AgentId) → World σ → List String × World σ
  | [], w => ([], w)
  | (name, aid) :: targets, w =>
    let result := w.perform (.sendMessage aid text) (handle.sendMessage aid text)
    let response := match result.1 with
      | .ok r => s!"[{name}]: {r}"
      | .error e => s!"[{name}]: Error: {e}"
    let rest := sendAll text targets result.2
    (response :: rest.1, rest.2)

/-- Send a text to all agents of a broadcast route; parallel tasks take effect in any order. -/
def broadcast (order : IterOrder ((String × AgentId) × ℕ)) (text : String)
    (targets : List (String × Option AgentId)) (w : World σ) : List String × World σ :=
  let known := targets.filterMap fun target => target.2.map fun aid => (target.1, aid)
  match w.router.broadcast.strategy with
  | .sequential => sendAll handle text known w
  | .parallel =>
    let tasks := order.arrange known.zipIdx
    let sent := sendAll handle text (tasks.map Prod.fst) w
    let answers := (tasks.map Prod.snd).zip sent.1
    ((List.range known.length).filterMap fun i => answers.lookup i, sent.2)

def ChannelMessage.response (message : ChannelMessage) (overrides : Option ChannelOverrides)
    (text : String) : Response where
  user := message.sender
  text := text
  threadId := if (overrides.map (·.threading)).getD false then message.threadId else none
  outputFormat := (overrides.bind (·.outputFormat)).getD .markdown

/-- Send back what has come of a message, and record it. -/
def relay (message : ChannelMessage) (agentId : AgentId) (response : Response)
    (error : Option String) (w : World σ) : World σ :=
  let ctStr := channelTypeStr message.channel
  let recipient := message.sender.platformId
  ((w.sendResponse response).perform
    (.recordDelivery agentId ctStr recipient error.isNone error)
    (handle.recordDelivery agentId ctStr recipient error.isNone error)).2

/-- Send a text to the agent to which it is routed. -/
def routeText (message : ChannelMessage) (respond : String → Response) (text : String)
    (w : World σ) : World σ :=
  let ctStr := channelTypeStr message.channel
  let sender := message.sender
  match w.textAgent debugStr message.channel sender with
  | none =>
    w.sendResponse <| respond <|
      "No agent assigned. Use /agents to list available agents, then /agent <name> to select one."
  | some agentId =>
    match handle.authorizeChannelUser ctStr sender.platformId "chat" w.kernel with
    | .error denied => w.sendResponse (respond s!"Access denied: {denied}")
    | .ok () =>
      match w.perform (.checkAutoReply agentId text) (handle.checkAutoReply agentId text) with
      | (some reply, w) => relay handle message agentId (respond reply) none w
      | (none, w) =>
        match w.perform (.sendMessage agentId text) (handle.sendMessage agentId text) with
        | (.ok response, w) => relay handle message agentId (respond response) none w
        | (.error e, w) =>
          let errMsg := s!"Agent error: {e}"
          relay handle message agentId (respond errMsg) (some errMsg) w

/-- Send a text that is not a command to the agents of a broadcast route, if there is one. -/
def dispatchText (order : IterOrder ((String × AgentId) × ℕ)) (message : ChannelMessage)
    (respond : String → Response) (text : String) (w : World σ) : World σ :=
  let peerId := message.sender.platformId
  let targets := w.router.resolveBroadcast peerId
  if w.router.hasBroadcast peerId && !targets.isEmpty then
    match handle.authorizeChannelUser (channelTypeStr message.channel) peerId "chat" w.kernel with
    | .error denied => w.sendResponse (respond s!"Access denied: {denied}")
    | .ok () =>
      let sent := broadcast handle order text targets w
      sent.2.sendResponse (respond ("\n\n".intercalate sent.1))
  else routeText handle debugStr message respond text w

def dispatchContent (order : IterOrder ((String × AgentId) × ℕ)) (message : ChannelMessage)
    (respond : String → Response) (w : World σ) : World σ :=
  match message.content with
  | .command name args =>
    let result := handleCommand handle debugStr name args message.sender w
    result.2.sendResponse (respond result.1)
  | .text text =>
    match textCommand? text with
    | some (cmd, args) =>
      let result := handleCommand handle debugStr cmd args message.sender w
      result.2.sendResponse (respond result.1)
    | none => dispatchText handle debugStr order message respond text w
  | _ => w.sendResponse (respond "I can only handle text messages for now.")

def rateLimit (overrides : Option ChannelOverrides) (message : ChannelMessage) (now : ℕ)
    (limiter : ChannelRateLimiter) : ChannelRateLimiter × Except String Unit :=
  match overrides with
  | none => (limiter, .ok ())
  | some ov =>
    if ov.rateLimitPerUser > 0 then
      limiter.check (channelTypeStr message.channel) message.sender.platformId
        ov.rateLimitPerUser now
    else (limiter, .ok ())

/-- Handle a bot command, or route a message to an agent. -/
def dispatchMessage (order : IterOrder ((String × AgentId) × ℕ)) (now : ℕ)
    (message : ChannelMessage) (w : World σ) : World σ :=
  let overrides := handle.channelOverrides (channelTypeStr message.channel) w.kernel
  if overrides.all fun ov => ov.policyAllows message then
    match rateLimit overrides message now w.rateLimiter with
    | (limiter, .error msg) =>
      { w with rateLimiter := limiter }.sendResponse (message.response overrides msg)
    | (limiter, .ok ()) =>
      dispatchContent handle debugStr order message (message.response overrides)
        { w with rateLimiter := limiter }
  else w

/-! ## What changes something -/

/-- The command in a message, in one of its two forms. -/
def ChannelContent.command? : ChannelContent → Option (Command × List String)
  | .command name args => (Command.parse name).map fun command => (command, args)
  | .text t =>
    (textCommand? t).bind fun parsed =>
      (Command.parse parsed.1).map fun command => (command, parsed.2)
  | _ => none

/-- The commands that change something, and when they do. -/
def Command.Changes (sender : ChannelUser) (w : World σ) (args : List String) : Command → Prop
  | .agent =>
    ∃ agentName, args.head? = some agentName ∧
      (handle.findAgentByName agentName w.kernel = .ok none ∨
        ∃ agentId, handle.findAgentByName agentName w.kernel = .ok (some agentId) ∧
          w.router.userDefaults.lookup sender.platformId ≠ some agentId)
  | .new | .compact | .stop | .think => w.currentAgent debugStr sender ≠ none
  | .model => w.currentAgent debugStr sender ≠ none ∧ args.headD "" ≠ ""
  | .workflow => args.length ≥ 2 ∧ args.head? = some "run"
  | .trigger =>
    (args.length ≥ 4 ∧ args.head? = some "add") ∨ (args.length ≥ 2 ∧ args.head? = some "del")
  | .schedule =>
    (args.length ≥ 8 ∧ args.head? = some "add") ∨
      (args.length ≥ 2 ∧ (args.head? = some "del" ∨ args.head? = some "run"))
  | .approve | .reject => args ≠ []
  | _ => False

/-- The policies and the rate limit of the channel let a message through. -/
def GetsThrough (now : ℕ) (message : ChannelMessage) (w : World σ) : Prop :=
  let overrides := handle.channelOverrides (channelTypeStr message.channel) w.kernel
  (overrides.all fun ov => ov.policyAllows message) = true ∧
    (rateLimit overrides message now w.rateLimiter).2 = .ok ()

/-- Nothing that changes the kernel has been done, and the router is as it was. -/
structure Harmless (w w' : World σ) : Prop where
  operations : w'.operations.filter Operation.changesState =
    w.operations.filter Operation.changesState
  router : w.router.Same w'.router

variable {w : World σ}

theorem Harmless.refl : Harmless w w := ⟨rfl, .refl⟩

@[simp] theorem harmless_sendResponse (response : Response) :
    Harmless w (w'.sendResponse response) ↔ Harmless w w' :=
  ⟨fun h => ⟨h.operations, h.router⟩, fun h => ⟨h.operations, h.router⟩⟩

theorem filter_concat_eq_self :
    (l ++ [op]).filter Operation.changesState = l.filter Operation.changesState ↔
      op.changesState = false := by
  simp

theorem harmless_perform (op : Operation) (f : σ → α × σ) :
    Harmless w (w.perform op f).2 ↔ op.changesState = false :=
  ⟨fun h => filter_concat_eq_self.mp h.operations,
    fun h => ⟨filter_concat_eq_self.mpr h, .refl⟩⟩

theorem harmless_onAgent (w : World σ) (sender : ChannelUser) (op : AgentId → Operation)
    (f : AgentId → σ → Except String String × σ) (hop : ∀ aid, (op aid).changesState = changes) :
    Harmless w (w.onAgent debugStr sender op f).2 ↔
      ¬ (w.currentAgent debugStr sender ≠ none ∧ changes = true) := by
  rw [World.onAgent]
  cases w.currentAgent debugStr sender with
  | none => exact iff_of_true .refl (by simp)
  | some aid =>
    rw [harmless_perform, hop]
    simp

/-- `/agent` is harmless if the agent is the sender's already, or cannot be looked up. -/
theorem harmless_selectAgent (agentName : String) (sender : ChannelUser) :
    Harmless w (selectAgent handle agentName sender w).2 ↔
      ¬ (handle.findAgentByName agentName w.kernel = .ok none ∨
        ∃ agentId, handle.findAgentByName agentName w.kernel = .ok (some agentId) ∧
          w.router.userDefaults.lookup sender.platformId ≠ some agentId) := by
  rw [selectAgent]
  cases hfind : handle.findAgentByName agentName w.kernel with
  | error e => exact iff_of_true .refl (by simp)
  | ok found =>
    cases found with
    | some agentId =>
      have hsame :
          Harmless w { w with router := w.router.setUserDefault sender.platformId agentId } ↔
            w.router.userDefaults.lookup sender.platformId = some agentId :=
        ⟨fun h => AgentRouter.same_setUserDefault.mp h.router,
          fun h => ⟨rfl, AgentRouter.same_setUserDefault.mpr h⟩⟩
      rw [hsame]
      simp
    | none =>
      refine iff_of_false (fun h => ?_) (by simp)
      -- spawning is an operation, whatever comes of it
      have hspawned := h.operations
      dsimp only at hspawned
      split at hspawned
      all_goals
        rename_i hperform
        obtain rfl := congrArg Prod.snd hperform
        cases filter_concat_eq_self.mp hspawned

variable (sender : ChannelUser) (args : List String)

theorem harmless_agentCommand :
    Harmless w (agentCommand handle sender w args).2 ↔
      ¬ Command.agent.Changes handle debugStr sender w args := by
  cases args with
  | nil =>
    refine iff_of_true .refl ?_
    rintro ⟨agentName, hhead, -⟩
    cases hhead
  | cons agentName rest =>
    refine (harmless_selectAgent handle agentName sender).trans (not_congr ⟨?_, ?_⟩)
    · exact fun h => ⟨agentName, rfl, h⟩
    · rintro ⟨_, ⟨⟩, h⟩
      exact h

theorem harmless_workflowCommand :
    Harmless w (workflowCommand handle w args).2 ↔
      ¬ Command.workflow.Changes handle debugStr sender w args := by
  rcases args with _ | ⟨action, _ | ⟨name, words⟩⟩
  · exact iff_of_true .refl (by simp [Command.Changes])
  · exact iff_of_true .refl (by simp [Command.Changes])
  · rw [workflowCommand]
    split_ifs with haction
    · exact iff_of_false (fun h => nomatch (harmless_perform _ _).mp h)
        (not_not_intro ⟨by simp, congrArg some haction⟩)
    · refine iff_of_true .refl ?_
      rintro ⟨-, hhead⟩
      exact haction (Option.some.inj hhead)

theorem harmless_triggerCommand :
    Harmless w (triggerCommand handle w args).2 ↔
      ¬ Command.trigger.Changes handle debugStr sender w args := by
  rw [triggerCommand]
  split_ifs with hadd hdel
  · exact iff_of_false (fun h => nomatch (harmless_perform _ _).mp h) (not_not_intro (.inl hadd))
  · exact iff_of_false (fun h => nomatch (harmless_perform _ _).mp h) (not_not_intro (.inr hdel))
  · exact iff_of_true .refl (not_or_intro hadd hdel)

theorem harmless_scheduleCommand :
    Harmless w (scheduleCommand handle w args).2 ↔
      ¬ Command.schedule.Changes handle debugStr sender w args := by
  cases args with
  | nil => exact iff_of_true .refl (by simp [Command.Changes])
  | cons action args =>
    rw [scheduleCommand]
    split_ifs with haction
    · rw [harmless_perform, Operation.changesState]
      simp only [Command.Changes]
      rcases haction with rfl | rfl | rfl <;> simp
    · refine iff_of_true .refl ?_
      simp only [Command.Changes]
      simp
      grind

theorem harmless_approvalCommand (usage : String) (approve : Bool) (args : List String) :
    Harmless w (approvalCommand handle w usage approve args).2 ↔ ¬ args ≠ [] := by
  cases args with
  | nil => exact iff_of_true .refl (by simp)
  | cons id rest =>
    exact iff_of_false (fun h => nomatch (harmless_perform _ _).mp h) (by simp)

/-- **Commands.** A command changes nothing exactly if it is not one that does. -/
theorem harmless_run (command : Command) :
    Harmless w (command.run handle debugStr sender w args).2 ↔
      ¬ command.Changes handle debugStr sender w args := by
  have hchanges {op : AgentId → Operation} (f : AgentId → σ → Except String String × σ)
      (hop : ∀ aid, (op aid).changesState = true) :
      Harmless w (w.onAgent debugStr sender op f).2 ↔ ¬ w.currentAgent debugStr sender ≠ none :=
    (harmless_onAgent debugStr w sender op f hop).trans (not_congr (and_iff_left rfl))
  cases command with
  | agent => exact harmless_agentCommand handle debugStr sender args
  | new => exact hchanges handle.resetSession fun _ => rfl
  | compact => exact hchanges handle.compactSession fun _ => rfl
  | stop => exact hchanges handle.stopRun fun _ => rfl
  | think => exact hchanges (handle.setThinking · (args.headD "on" = "on")) fun _ => rfl
  | model =>
    have hop := harmless_onAgent debugStr w sender (.setModel · (args.headD ""))
      (handle.setModel · (args.headD "")) fun _ => rfl
    exact hop.trans (not_congr (and_congr_right fun _ => decide_eq_true_iff))
  | workflow => exact harmless_workflowCommand handle debugStr sender args
  | trigger => exact harmless_triggerCommand handle debugStr sender args
  | schedule => exact harmless_scheduleCommand handle debugStr sender args
  | approve => exact harmless_approvalCommand handle _ true args
  | reject => exact harmless_approvalCommand handle _ false args
  | _ => exact iff_of_true .refl id

theorem harmless_handleCommand (name : String) (args : List String) (sender : ChannelUser) :
    Harmless w (handleCommand handle debugStr name args sender w).2 ↔
      ¬ ∃ command, Command.parse name = some command ∧
        command.Changes handle debugStr sender w args := by
  rw [handleCommand]
  cases Command.parse name with
  | none => exact iff_of_true .refl (by simp)
  | some command =>
    refine (harmless_run handle debugStr sender args command).trans (not_congr ⟨?_, ?_⟩)
    · exact fun h => ⟨command, rfl, h⟩
    · rintro ⟨_, ⟨⟩, h⟩
      exact h

/-! ## Senders to whom everything is denied -/

def Denied (message : ChannelMessage) (w : World σ) : Prop :=
  ∀ action, ∃ reason, handle.authorizeChannelUser (channelTypeStr message.channel)
    message.sender.platformId action w.kernel = .error reason

variable {message : ChannelMessage}

theorem harmless_routeText (hdenied : Denied handle message w) (respond : String → Response)
    (text : String) : Harmless w (routeText handle debugStr message respond text w) := by
  obtain ⟨reason, hreason⟩ := hdenied "chat"
  rw [routeText]
  split
  · exact (harmless_sendResponse _).mpr .refl
  · rw [hreason]
    exact (harmless_sendResponse _).mpr .refl

/-- **Texts.** Nothing is sent to an agent. -/
theorem harmless_dispatchText (hdenied : Denied handle message w)
    (order : IterOrder ((String × AgentId) × ℕ)) (respond : String → Response) (text : String) :
    Harmless w (dispatchText handle debugStr order message respond text w) := by
  obtain ⟨reason, hreason⟩ := hdenied "chat"
  simp only [dispatchText]
  split
  · rw [hreason]
    exact (harmless_sendResponse _).mpr .refl
  · exact harmless_routeText handle debugStr hdenied respond text

theorem harmless_dispatchContent (hdenied : Denied handle message w)
    (order : IterOrder ((String × AgentId) × ℕ)) (respond : String → Response) :
    Harmless w (dispatchContent handle debugStr order message respond w) ↔
      ¬ ∃ command args, message.content.command? = some (command, args) ∧
        command.Changes handle debugStr message.sender w args := by
  have hcommand (name : String) (args : List String) :
      (∃ command args', (Command.parse name).map (fun command => (command, args)) =
          some (command, args') ∧ command.Changes handle debugStr message.sender w args') ↔
        ∃ command, Command.parse name = some command ∧
          command.Changes handle debugStr message.sender w args := by
    cases Command.parse name <;> simp
  rw [dispatchContent]
  cases message.content with
  | command name args =>
    rw [harmless_sendResponse, harmless_handleCommand]
    exact not_congr (hcommand name args).symm
  | text t =>
    dsimp only
    cases hparsed : textCommand? t with
    | none =>
      refine iff_of_true (harmless_dispatchText handle debugStr hdenied order respond t) ?_
      simp [ChannelContent.command?, hparsed]
    | some parsed =>
      rw [harmless_sendResponse, harmless_handleCommand]
      simp only [ChannelContent.command?, hparsed, Option.bind_some]
      exact not_congr (hcommand parsed.1 parsed.2).symm
  | image | file | voice | location =>
    exact iff_of_true ((harmless_sendResponse _).mpr .refl) (by simp [ChannelContent.command?])

/-- **Who is denied everything changes nothing**, unless by a command that gets through. -/
theorem denied_iff (order : IterOrder ((String × AgentId) × ℕ)) (now : ℕ)
    (message : ChannelMessage) (w : World σ) (hdenied : Denied handle message w) :
    Harmless w (dispatchMessage handle debugStr order now message w) ↔
      ¬ (GetsThrough handle now message w ∧
        ∃ command args, message.content.command? = some (command, args) ∧
          command.Changes handle debugStr message.sender w args) := by
  simp only [dispatchMessage, GetsThrough]
  split
  · rename_i hpolicy
    generalize hlimit : rateLimit _ message now w.rateLimiter = limited
    obtain ⟨limiter, msg | ⟨⟩⟩ := limited
    · exact iff_of_true ((harmless_sendResponse _).mpr ⟨rfl, .refl⟩) (by simp)
    · have hcontent := @harmless_dispatchContent σ handle debugStr
        { w with rateLimiter := limiter } message hdenied order
        (message.response (handle.channelOverrides (channelTypeStr message.channel) w.kernel))
      rw [and_iff_right ⟨hpolicy, rfl⟩]
      refine ⟨fun h => hcontent.mp ⟨h.operations, h.router⟩, fun h => ?_⟩
      have hharmless := hcontent.mpr h
      exact ⟨hharmless.operations, hharmless.router⟩
  · rename_i hpolicy
    exact iff_of_true .refl fun h => hpolicy h.1.1

/-! ## A user who is not known -/

def closedKernel : ChannelBridgeHandle Unit where
  findAgentByName _ _ := .ok none
  listAgents _ := .ok [("a1", "coder")]
  report _ _ := ""
  sessionUsage _ _ := .ok ""
  authorizeChannelUser _ _ _ _ := .error "Unrecognized user. Contact an admin to get access."
  channelOverrides _ _ := some ⟨.allowedOnly, .mentionOnly, 0, false, none⟩
  sendMessage _ _ k := (.ok "", k)
  checkAutoReply _ _ k := (none, k)
  recordDelivery _ _ _ _ _ k := ((), k)
  spawnAgentByName _ k := (.error "Manifest not found", k)
  resetSession _ k := (.ok "Session reset. Chat history cleared.", k)
  compactSession _ k := (.ok "", k)
  setModel _ _ k := (.ok "", k)
  stopRun _ k := (.ok "Run cancelled.", k)
  setThinking _ _ k := (.ok "", k)
  runWorkflowText _ _ k := ("", k)
  createTriggerText _ _ _ k := ("", k)
  deleteTriggerText _ k := ("", k)
  manageScheduleText _ _ k := ("", k)
  resolveApprovalText _ _ k := ("Approved", k)

def oneAgent : World Unit where
  kernel := ()
  router := { AgentRouter.new with defaultAgent := some "a1" }
  rateLimiter := ⟨∅⟩
  operations := []
  responses := []

def fromStranger (text : String) : ChannelMessage :=
  ⟨.telegram, ⟨"4711", none⟩, .text text, false, none⟩

def dispatched (text : String) : World Unit :=
  dispatchMessage closedKernel id (.stored _) 0 (fromStranger text) oneAgent

theorem denied_fromStranger (text : String) : Denied closedKernel (fromStranger text) oneAgent :=
  fun _ => ⟨_, rfl⟩

/-- A text is answered, and nothing else happens. -/
theorem hello_denied :
    (dispatched "hello").responses =
        [⟨⟨"4711", none⟩, "Access denied: Unrecognized user. Contact an admin to get access.", none,
          .markdown⟩] ∧
      Harmless oneAgent (dispatched "hello") := by
  refine ⟨rfl, (denied_iff closedKernel id (.stored _) 0 _ _ (denied_fromStranger "hello")).mpr ?_⟩
  rintro ⟨-, command, args, hcommand, -⟩
  cases hcommand

/-- A request is approved for a sender to whom every action is denied, and a session is reset. -/
theorem approved_by_denied :
    Denied closedKernel (fromStranger "/approve 1f2e") oneAgent ∧
      (dispatched "/approve 1f2e").operations = [.resolveApprovalText "1f2e" true] ∧
      (dispatched "/new").operations = [.resetSession "a1"] ∧
      ¬ Harmless oneAgent (dispatched "/approve 1f2e") := by
  refine ⟨denied_fromStranger _, rfl, rfl, fun h => ?_⟩
  exact absurd h.operations (by decide)

end AlloyAgent.Channels
