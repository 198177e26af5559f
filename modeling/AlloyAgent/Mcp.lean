import AlloyAgent.RustStr

/-!
# Names of MCP tools

The tools of an MCP server are published under names `mcp_{server}_{tool}`, in which both parts are
normalised.

`lower` is `to_lowercase`, any function of texts; `J` is the type of JSON values.

* `executeTool_published`: what is done under a published name;
* `reaches_iff`: when a call reaches the server that published the tool.
-/

namespace AlloyAgent.Mcp

open List

universe u

abbrev Name := List Char

/-- A tool as a server describes it in its answer to `tools/list`. -/
structure AdvertisedTool (J : Type u) where
  name : Option Name
  description : Option String
  inputSchema : Option J

structure ToolDefinition (J : Type u) where
  name : Name
  description : String
  inputSchema : J
  deriving DecidableEq

structure McpConnection (J : Type u) where
  name : Name
  tools : List (ToolDefinition J)
  deriving DecidableEq

section

variable (lower : Name → Name)

/-- Normalize a name for use in tool namespacing (lowercase, replace hyphens). -/
def normalizeName (name : Name) : Name :=
  (lower name).map fun c => if c = '-' then '_' else c

def namespaceTag : Name := ['m', 'c', 'p', '_']

def serverTag (server : Name) : Name := namespaceTag ++ normalizeName lower server ++ ['_']

/-- Format a namespaced MCP tool name: `mcp_{server}_{tool}`. -/
def formatMcpToolName (server tool : Name) : Name :=
  serverTag lower server ++ normalizeName lower tool

def isMcpTool (name : Name) : Bool := namespaceTag.isPrefixOf name

def firstPart (name : Name) : Name := name.takeWhile (· ≠ '_')

/-- Extract server name from an MCP tool name. -/
def extractMcpServer (toolName : Name) : Option Name :=
  if isMcpTool toolName then
    let rest := toolName.drop 4
    if '_' ∈ rest then some (firstPart rest) else none
  else none

/-- Strip the MCP namespace from a tool name. -/
def stripMcpPrefix (server toolName : Name) : Option Name :=
  (serverTag lower server).isPrefixOf? toolName

variable {J : Type u} (objectSchema : J)

def discoverTool (serverName : Name) (tool : AdvertisedTool J) : ToolDefinition J where
  name := formatMcpToolName lower serverName (tool.name.getD "unnamed".toList)
  description :=
    "[MCP:" ++ String.ofList serverName ++ "] " ++ tool.description.getD ""
  inputSchema := tool.inputSchema.getD objectSchema

/-- Discover available tools via `tools/list`, whose answer is `tools`. -/
def discoverTools (serverName : Name) (tools : List (AdvertisedTool J)) : McpConnection J where
  name := serverName
  tools := tools.map (discoverTool lower objectSchema serverName)

def builtinTools : List String :=
  ["file_read", "file_write", "file_list", "apply_patch", "web_fetch", "web_search",
    "shell_exec", "agent_send", "agent_spawn", "agent_list", "agent_kill", "memory_store",
    "memory_recall", "agent_find", "task_post", "task_claim", "task_complete", "task_list",
    "event_publish", "schedule_create", "schedule_list", "schedule_delete",
    "knowledge_add_entity", "knowledge_add_relation", "knowledge_query", "image_analyze",
    "media_describe", "media_transcribe", "image_generate", "text_to_speech", "speech_to_text",
    "docker_exec", "location_get", "cron_create", "cron_list", "cron_cancel", "process_start",
    "process_poll", "process_write", "process_kill", "process_list", "hand_list",
    "hand_activate", "hand_status", "hand_deactivate", "a2a_discover", "a2a_send",
    "browser_navigate", "browser_click", "browser_type", "browser_screenshot",
    "browser_read_page", "browser_close", "canvas_present"]

/-- What executing a tool comes to. A `call` sends `tools/call` to one server. -/
inductive Execution (J : Type u) where
  | builtin (name : Name)
  | call (server : McpConnection J) (tool : Name) (arguments : J)
  | skill (name : Name)
  | failed (error : String)
  deriving DecidableEq

/-- Call a tool on the MCP server, by its namespaced name. -/
def McpConnection.callTool (conn : McpConnection J) (name : Name) (arguments : J) : Execution J :=
  .call conn ((stripMcpPrefix lower conn.name name).getD name) arguments

/-- Execute a tool by name with the given input. -/
def executeTool (connections : Option (List (McpConnection J))) (toolName : Name) (input : J) :
    Execution J :=
  if toolName ∈ builtinTools.map String.toList then .builtin toolName
  else if isMcpTool toolName then
    match connections with
    | none => .failed ("MCP not available for tool: " ++ String.ofList toolName)
    | some conns =>
      match extractMcpServer toolName with
      | none => .failed ("Invalid MCP tool name: " ++ String.ofList toolName)
      | some serverName =>
        match conns.find? (fun c => c.name = serverName) with
        | none => .failed ("MCP server '" ++ String.ofList serverName ++ "' not connected")
        | some conn => conn.callTool lower toolName input
  else .skill toolName

/-! ## Taking a published name apart -/

variable {lower} {server tool : Name}

theorem isMcpTool_format : isMcpTool (formatMcpToolName lower server tool) = true := by
  rw [isMcpTool, formatMcpToolName, serverTag, isPrefixOf_iff_prefix, append_assoc,
    append_assoc]
  exact prefix_append _ _

theorem not_builtin (h : isMcpTool name = true) : name ∉ builtinTools.map String.toList := by
  intro hmem
  obtain ⟨builtin, hbuiltin, rfl⟩ := mem_map.mp hmem
  have hnone : ∀ b ∈ builtinTools, isMcpTool b.toList = false := by decide +kernel
  cases h.symm.trans (hnone builtin hbuiltin)

theorem firstPart_append (rest : Name) :
    firstPart (server ++ '_' :: rest) = firstPart server :=
  RustStr.takeWhile_append_stop (by simp)

/-- The server that dispatch reads from a published name: up to the first underscore. -/
theorem extractMcpServer_format :
    extractMcpServer (formatMcpToolName lower server tool) =
      some (firstPart (normalizeName lower server)) := by
  have hrest : (formatMcpToolName lower server tool).drop 4 =
      normalizeName lower server ++ '_' :: normalizeName lower tool := by
    rw [formatMcpToolName, serverTag, append_assoc, append_assoc]
    rfl
  rw [extractMcpServer, if_pos isMcpTool_format, hrest]
  rw [if_pos (by simp), firstPart_append]

theorem isPrefixOf?_append {α : Type u} [BEq α] [LawfulBEq α] (l rest : List α) :
    l.isPrefixOf? (l ++ rest) = some rest := by
  induction l with
  | nil => rfl
  | cons a l ih => simp [List.isPrefixOf?, ih]

/-- **What is done under a published name**: the first server named like its first part. -/
theorem executeTool_published (conns : List (McpConnection J)) (input : J) :
    executeTool lower (some conns) (formatMcpToolName lower server tool) input =
      match conns.find? (fun c => c.name = firstPart (normalizeName lower server)) with
      | none => .failed ("MCP server '" ++
          String.ofList (firstPart (normalizeName lower server)) ++ "' not connected")
      | some conn => conn.callTool lower (formatMcpToolName lower server tool) input := by
  rw [executeTool, if_neg (not_builtin isMcpTool_format), if_pos isMcpTool_format]
  simp only [extractMcpServer_format]

/-! ## The servers that are connected -/

/-- A server: the name in its configuration, and what it answers to `tools/list`. -/
structure Server (J : Type u) where
  name : Name
  tools : List (AdvertisedTool J)

def Server.connect (lower : Name → Name) (objectSchema : J) (server : Server J) :
    McpConnection J :=
  discoverTools lower objectSchema server.name server.tools

variable {objectSchema}

theorem find?_connect {servers : List (Server J)}
    (hdistinct : (servers.map fun s => normalizeName lower s.name).Nodup) {s : Server J}
    (hs : s ∈ servers) :
    (servers.map (Server.connect lower objectSchema)).find? (fun c => c.name = s.name) =
      some (s.connect lower objectSchema) := by
  induction servers with
  | nil => cases hs
  | cons s' servers ih =>
    rw [map_cons, nodup_cons] at hdistinct
    rw [map_cons, find?_cons]
    by_cases hname : s'.name = s.name
    · have hsame : s = s' := by
        rcases mem_cons.mp hs with rfl | hs
        · rfl
        · refine absurd (mem_map.mpr ⟨s, hs, ?_⟩) hdistinct.1
          rw [hname]
      subst hsame
      simp [Server.connect, discoverTools]
    · have hs : s ∈ servers := by
        rcases mem_cons.mp hs with rfl | hs
        · exact absurd rfl hname
        · exact hs
      have hskip : (decide ((s'.connect lower objectSchema).name = s.name)) = false :=
        decide_eq_false hname
      rw [hskip]
      exact ih hdistinct.2 hs

/-- **Where the call of a published tool goes**: to its server and tool if names are plain. -/
theorem reaches_iff {servers : List (Server J)}
    (hdistinct : (servers.map fun s => normalizeName lower s.name).Nodup) {s : Server J}
    (hs : s ∈ servers) (input : J) :
    ∀ tool ∈ s.tools, ∀ t, tool.name = some t →
      (executeTool lower (some (servers.map (Server.connect lower objectSchema)))
          (discoverTool lower objectSchema s.name tool).name input =
          .call (s.connect lower objectSchema) t input ↔
        s.name = firstPart (normalizeName lower s.name) ∧ normalizeName lower t = t) := by
  intro tool _ t ht
  have hname : (discoverTool lower objectSchema s.name tool).name =
      formatMcpToolName lower s.name t := by
    rw [discoverTool, ht, Option.getD_some]
  rw [hname, executeTool_published]
  refine ⟨fun hcall => ?_, ?_⟩
  · -- the server that was found is the one that was called
    split at hcall
    · cases hcall
    · rename_i conn hfind
      rw [McpConnection.callTool] at hcall
      obtain ⟨rfl, htool, -⟩ := Execution.call.inj hcall
      have hserver : (s.connect lower objectSchema).name =
          firstPart (normalizeName lower s.name) := by
        simpa using find?_some hfind
      refine ⟨hserver, ?_⟩
      have hstrip : stripMcpPrefix lower (s.connect lower objectSchema).name
          (formatMcpToolName lower s.name t) = some (normalizeName lower t) :=
        isPrefixOf?_append _ _
      rwa [hstrip, Option.getD_some] at htool
  · rintro ⟨hserver, htool⟩
    have hstrip : stripMcpPrefix lower (s.connect lower objectSchema).name
        (formatMcpToolName lower s.name t) = some (normalizeName lower t) :=
      isPrefixOf?_append _ _
    rw [← hserver, find?_connect hdistinct hs]
    dsimp only
    rw [McpConnection.callTool, hstrip, Option.getD_some, htool]

end

def asciiLower (name : Name) : Name := name.map Char.toLower

def oneTool (server tool : String) : Server Unit :=
  ⟨server.toList, [⟨some tool.toList, none, none⟩]⟩

def github : Server Unit := oneTool "github" "create_issue"

theorem github_reached :
    executeTool asciiLower
        (some ([github, oneTool "my-server" "do_thing"].map (Server.connect asciiLower ())))
        "mcp_github_create_issue".toList () =
      .call (github.connect asciiLower ()) "create_issue".toList () :=
  (@reaches_iff asciiLower Unit () [github, oneTool "my-server" "do_thing"] (by decide) github
    (mem_cons_self ..) () ⟨some "create_issue".toList, none, none⟩ (mem_cons_self ..)
    "create_issue".toList rfl).mpr (by decide)

/-- The tool of a server with a hyphen in its name is looked for somewhere else. -/
theorem hyphen_misrouted :
    executeTool asciiLower (some [(oneTool "my-server" "do_thing").connect asciiLower ()])
        "mcp_my_server_do_thing".toList () = .failed "MCP server 'my' not connected" ∧
      executeTool asciiLower
        (some ([oneTool "my-server" "do_thing", oneTool "my" "other"].map
          (Server.connect asciiLower ())))
        "mcp_my_server_do_thing".toList () =
      .call ((oneTool "my" "other").connect asciiLower ()) "server_do_thing".toList () := by
  decide +kernel

end AlloyAgent.Mcp
