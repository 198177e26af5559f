import AlloyAgent.Capability
import AlloyAgent.HashTable
import AlloyAgent.Mcp

/-!
# The tools that an agent is offered

`available_tools` puts together what an agent could use: the built-in tools that its profile admits,
the tools of skills, and the tools of MCP servers, the latter two under the allowlists of its
manifest.

`lower` is `to_lowercase`, any function of texts; `J` is the type of JSON values.

* `availableTools`, and the tools of skills and of MCP servers that it adds;
* `availableTools_eq_filter`: the capabilities admit the tools that their check grants;
* `mcpAllowlist_iff`, `skillAllowlist_iff`: when the two allowlists hold.
-/

namespace AlloyAgent

open List

namespace AvailableTools

open Mcp

universe u

abbrev AgentId := String

/-! ## Capabilities of agents -/

/-- Why a capability is denied: none is registered, or none of them matches. -/
inductive Denial where
  | noCapabilities (agentId : AgentId)
  | missing (agentId : AgentId) (required : Capability)
  deriving DecidableEq

inductive CapabilityCheck where
  | granted
  | denied (reason : Denial)
  deriving DecidableEq

def CapabilityCheck.isGranted : CapabilityCheck → Bool
  | .granted => true
  | .denied _ => false

/-- Manages capability grants for all agents. -/
structure CapabilityManager where
  grants : Table AgentId (List Capability)

namespace CapabilityManager

def grant (m : CapabilityManager) (agentId : AgentId) (capabilities : List Capability) :
    CapabilityManager :=
  ⟨m.grants.insert agentId capabilities⟩

def check (m : CapabilityManager) (agentId : AgentId) (required : Capability) : CapabilityCheck :=
  match m.grants.lookup agentId with
  | none => .denied (.noCapabilities agentId)
  | some grants =>
    if grants.any fun granted => capabilityMatches granted required then .granted
    else .denied (.missing agentId required)

def list (m : CapabilityManager) (agentId : AgentId) : List Capability :=
  (m.grants.lookup agentId).getD []

theorem isGranted_check (m : CapabilityManager) (agentId : AgentId) (required : Capability) :
    (m.check agentId required).isGranted =
      (m.list agentId).any fun granted => capabilityMatches granted required := by
  rw [check, list]
  cases m.grants.lookup agentId with
  | none => rfl
  | some grants =>
    dsimp only [Option.getD_some]
    split
    · rename_i hany
      exact hany.symm
    · rename_i hany
      exact (Bool.not_eq_true _ ▸ hany).symm

end CapabilityManager

/-! ## Profiles, skills and servers -/

inductive ToolProfile where
  | minimal | coding | research | messaging | automation | full | custom
  deriving DecidableEq

def ToolProfile.tools : ToolProfile → List String
  | .minimal => ["file_read", "file_list"]
  | .coding => ["file_read", "file_write", "file_list", "shell_exec", "web_fetch"]
  | .research => ["web_fetch", "web_search", "file_read", "file_write"]
  | .messaging => ["agent_send", "agent_list", "memory_store", "memory_recall"]
  | .automation =>
    ["file_read", "file_write", "file_list", "shell_exec", "web_fetch", "web_search",
      "agent_send", "agent_list", "memory_store", "memory_recall"]
  | .full => ["*"]
  | .custom => ["*"]

structure SkillToolDef (J : Type u) where
  name : Mcp.Name
  description : String
  inputSchema : J

/-- An installed skill: its name and tools, from the manifest, and whether it is enabled. -/
structure InstalledSkill (J : Type u) where
  name : String
  provided : List (SkillToolDef J)
  enabled : Bool

structure SkillRegistry (J : Type u) where
  skills : Table String (InstalledSkill J)
  /-- in Stable mode nothing more is loaded -/
  frozen : Bool

section

variable {J : Type u}

def SkillRegistry.allToolDefinitions (order : IterOrder (String × InstalledSkill J))
    (r : SkillRegistry J) : List (SkillToolDef J) :=
  ((order.arrange r.skills.pairs).filter fun s => s.2.enabled).flatMap fun s => s.2.provided

def SkillRegistry.toolDefinitionsForSkills (order : IterOrder (String × InstalledSkill J))
    (r : SkillRegistry J) (names : List String) : List (SkillToolDef J) :=
  ((order.arrange r.skills.pairs).filter fun s =>
    s.2.enabled && decide (s.2.name ∈ names)).flatMap fun s => s.2.provided

/-- Find which skill provides a given tool name. -/
def SkillRegistry.findToolProvider (order : IterOrder (String × InstalledSkill J))
    (r : SkillRegistry J) (toolName : Mcp.Name) : Option (InstalledSkill J) :=
  ((order.arrange r.skills.pairs).find? fun s =>
    s.2.enabled && s.2.provided.any fun t => t.name = toolName).map Prod.snd

/-- What `load_skill` reads from a directory: the manifest of a skill. -/
structure SkillManifest (J : Type u) where
  name : String
  provided : List (SkillToolDef J)

def SkillManifest.installed (m : SkillManifest J) : InstalledSkill J := ⟨m.name, m.provided, true⟩

/-- `load_workspace_skills`: the skills of the workspace of an agent override those with their
names. -/
def SkillRegistry.loadWorkspaceSkills (r : SkillRegistry J) (workspace : List (SkillManifest J)) :
    SkillRegistry J :=
  if r.frozen then r
  else { r with skills := workspace.foldl (fun t m => t.insert m.name m.installed) r.skills }

def SkillToolDef.toDefinition (t : SkillToolDef J) : Mcp.ToolDefinition J :=
  ⟨t.name, t.description, t.inputSchema⟩

variable (lower : Mcp.Name → Mcp.Name) (objectSchema : J)

/-- The connections to MCP servers and the cache of their tools. -/
structure McpState where
  connections : List (McpConnection J)
  mcpTools : List (Mcp.ToolDefinition J)
  discovered : ∀ c ∈ connections, ∃ server : Server J, c = server.connect lower objectSchema
  cached : mcpTools = connections.flatMap McpConnection.tools

namespace McpState

def new : McpState lower objectSchema := ⟨[], [], nofun, rfl⟩

variable {lower objectSchema}

def connect (st : McpState lower objectSchema) (server : Server J) :
    McpState lower objectSchema where
  connections := st.connections ++ [server.connect lower objectSchema]
  mcpTools := st.mcpTools ++ (server.connect lower objectSchema).tools
  discovered := by
    intro c hc
    rcases List.mem_append.mp hc with hc | hc
    · exact st.discovered c hc
    · exact ⟨server, List.mem_singleton.mp hc⟩
  cached := by
    rw [st.cached, List.flatMap_append, List.flatMap_singleton]

theorem extractMcpServer_tool (st : McpState lower objectSchema) {c : McpConnection J}
    (hc : c ∈ st.connections) {t : Mcp.ToolDefinition J} (ht : t ∈ c.tools) :
    extractMcpServer t.name = some (firstPart (normalizeName lower c.name)) := by
  obtain ⟨server, rfl⟩ := st.discovered c hc
  obtain ⟨tool, -, rfl⟩ := mem_map.mp ht
  exact extractMcpServer_format

end McpState

/-! ## Available tools -/

structure AgentManifest where
  /-- skill allowlist; empty means all -/
  skills : List String
  /-- MCP server allowlist; empty means all -/
  mcpServers : List Mcp.Name
  profile : Option ToolProfile

structure Kernel where
  builtins : List (Mcp.ToolDefinition J)
  registry : Table AgentId AgentManifest
  capabilities : CapabilityManager
  skillRegistry : SkillRegistry J
  mcp : McpState lower objectSchema

namespace Kernel

variable {lower objectSchema} (k : Kernel lower objectSchema)

/-- The manifest of an agent; what an agent without an entry has is the default. -/
def manifestOf (agentId : AgentId) : AgentManifest :=
  (k.registry.lookup agentId).getD ⟨[], [], none⟩

/-- The built-in tools, filtered by the profile if it is set and neither full nor custom. -/
def profileTools (manifest : AgentManifest) : List (Mcp.ToolDefinition J) :=
  match manifest.profile with
  | some profile =>
    if profile ≠ .full ∧ profile ≠ .custom then
      k.builtins.filter fun t => profile.tools.any fun a => a = "*" || a.toList = t.name
    else k.builtins
  | none => k.builtins

/-- The tools of skills, filtered by the allowlist of skills if there is one. -/
def skillTools (order : IterOrder (String × InstalledSkill J)) (manifest : AgentManifest) :
    List (Mcp.ToolDefinition J) :=
  (if manifest.skills = [] then k.skillRegistry.allToolDefinitions order
    else k.skillRegistry.toolDefinitionsForSkills order manifest.skills).map
      SkillToolDef.toDefinition

/-- The tools of MCP servers, filtered by the allowlist of servers if there is one. -/
def mcpTools (manifest : AgentManifest) : List (Mcp.ToolDefinition J) :=
  if manifest.mcpServers = [] then k.mcp.mcpTools
  else
    let normalized := manifest.mcpServers.map (normalizeName lower)
    k.mcp.mcpTools.filter fun t =>
      match extractMcpServer t.name with
      | some s => normalized.contains s
      | none => false

def candidates (order : IterOrder (String × InstalledSkill J)) (agentId : AgentId) :
    List (Mcp.ToolDefinition J) :=
  let manifest := k.manifestOf agentId
  k.profileTools manifest ++ k.skillTools order manifest ++ k.mcpTools manifest

/-- The tools available to an agent based on its capabilities. -/
def availableTools (order : IterOrder (String × InstalledSkill J)) (agentId : AgentId) :
    List (Mcp.ToolDefinition J) :=
  let allTools := k.candidates order agentId
  let caps := k.capabilities.list agentId
  if caps.any fun c => c = .toolAll then allTools
  else allTools.filter fun tool => caps.any fun c =>
    match c with
    | .toolInvoke name => name = String.ofList tool.name || name = "*"
    | _ => false

def invoke (tool : Mcp.ToolDefinition J) : Capability := .toolInvoke (String.ofList tool.name)

/-- A grant for a tool is `toolAll`, its name, or a star. -/
theorem capabilityMatches_toolInvoke (c : Capability) (id : String) :
    capabilityMatches c (.toolInvoke id) =
      (decide (c = .toolAll) || match c with
        | .toolInvoke name => name = id || name = "*"
        | _ => false) := by
  cases c <;> simp [capabilityMatches]

/-- **Tool filtering agrees with capability checking.** -/
theorem availableTools_eq_filter (order : IterOrder (String × InstalledSkill J))
    (agentId : AgentId) :
    k.availableTools order agentId = (k.candidates order agentId).filter fun tool =>
      (k.capabilities.check agentId (invoke tool)).isGranted := by
  simp only [CapabilityManager.isGranted_check, invoke, capabilityMatches_toolInvoke]
  rw [availableTools]
  split
  · rename_i hall
    obtain ⟨c, hc, hcall⟩ := any_eq_true.mp hall
    refine (filter_eq_self.mpr fun tool _ => ?_).symm
    exact any_eq_true.mpr ⟨c, hc, by rw [hcall, Bool.true_or]⟩
  · rename_i hall
    -- without `toolAll` only the names are left
    refine filter_congr fun tool _ => ?_
    have hnone : .toolAll ∉ k.capabilities.list agentId := by simpa using hall
    rw [Bool.eq_iff_iff, any_eq_true, any_eq_true]
    refine exists_congr fun c => and_congr_right fun hc => ?_
    have hne : c ≠ .toolAll := fun heq => hnone (heq ▸ hc)
    rw [decide_eq_false hne, Bool.false_or]

end Kernel

/-! ## The allowlist of servers -/

variable {α β : Type u} {f : α → List β} {p : α → Bool}

theorem filter_flatMap {keep : β → Bool} :
    ∀ {l : List α}, (∀ a ∈ l, ∀ b ∈ f a, keep b = p a) →
      (l.flatMap f).filter keep = (l.filter p).flatMap f := by
  intro l
  induction l with
  | nil => intro _; rfl
  | cons a l ih =>
    intro h
    obtain ⟨ha, hl⟩ := forall_mem_cons.mp h
    rw [flatMap_cons, filter_append, ih hl]
    cases hp : p a with
    | true =>
      rw [filter_cons_of_pos hp, flatMap_cons,
        filter_eq_self.mpr fun b hb => (ha b hb).trans hp]
    | false =>
      rw [filter_cons_of_neg (by simp [hp]), filter_eq_nil_iff.mpr fun b hb => by
        simp [ha b hb, hp], nil_append]

theorem flatMap_filter_congr {q : α → Bool} :
    ∀ {l : List α}, (∀ a ∈ l, f a ≠ [] → p a = q a) →
      (l.filter p).flatMap f = (l.filter q).flatMap f := by
  intro l
  induction l with
  | nil => intro _; rfl
  | cons a l ih =>
    intro h
    obtain ⟨ha, hl⟩ := forall_mem_cons.mp h
    rw [filter_cons, filter_cons]
    by_cases hfa : f a = []
    · split_ifs <;> simp only [flatMap_cons, hfa, nil_append, ih hl]
    · rw [ha hfa]
      split_ifs <;> simp only [flatMap_cons, ih hl]

theorem length_flatMap_filter (f : α → List β) (p : α → Bool) (l : List α) :
    ((l.filter p).flatMap f).length = (l.map fun a => if p a then (f a).length else 0).sum := by
  induction l with
  | nil => rfl
  | cons a l ih =>
    rw [map_cons, sum_cons, ← ih, filter_cons]
    split
    · rw [flatMap_cons, length_append]
    · rw [Nat.zero_add]

/-- Parts chosen by `q` are chosen by `p`: if together they are the same, so are the choices. -/
theorem of_flatMap_filter_eq {q : α → Bool} {l : List α}
    (hqp : ∀ a ∈ l, f a ≠ [] → q a = true → p a = true)
    (heq : (l.filter p).flatMap f = (l.filter q).flatMap f) :
    ∀ a ∈ l, f a ≠ [] → p a = true → q a = true := by
  intro a ha hfa hpa
  by_contra hqa
  -- a part that only `p` has chosen would make a difference in length
  have hle : ∀ b ∈ l, (if q b then (f b).length else 0) ≤ if p b then (f b).length else 0 := by
    intro b hb
    by_cases hfb : f b = []
    · simp [hfb]
    · split_ifs with hqb hpb
      · exact le_rfl
      · exact absurd (hqp b hb hfb hqb) hpb
      · exact Nat.zero_le _
      · exact le_rfl
  have hlt : (if q a then (f a).length else 0) < if p a then (f a).length else 0 := by
    rw [if_neg hqa, if_pos hpa]
    exact length_pos_iff.mpr hfa
  have hsum := sum_lt_sum _ _ hle ⟨a, ha, hlt⟩
  rw [← length_flatMap_filter, ← length_flatMap_filter, heq] at hsum
  exact lt_irrefl _ hsum

namespace Kernel

variable {lower objectSchema} (k : Kernel lower objectSchema)

/-- The normalised name of the server is that of an entry of the allowlist. -/
def Allowed (lower : Mcp.Name → Mcp.Name) (allowlist : List Mcp.Name) (server : Mcp.Name) : Prop :=
  normalizeName lower server ∈ allowlist.map (normalizeName lower)

instance decidableAllowed (allowlist : List Mcp.Name) (server : Mcp.Name) :
    Decidable (Allowed lower allowlist server) :=
  inferInstanceAs (Decidable (_ ∈ _))

def toolsOfAllowed (allowlist : List Mcp.Name) : List (Mcp.ToolDefinition J) :=
  (k.mcp.connections.filter fun c => Allowed lower allowlist c.name).flatMap McpConnection.tools

theorem mcpTools_eq (manifest : AgentManifest) (hallow : manifest.mcpServers ≠ []) :
    k.mcpTools manifest = (k.mcp.connections.filter fun c =>
      firstPart (normalizeName lower c.name) ∈
        manifest.mcpServers.map (normalizeName lower)).flatMap McpConnection.tools := by
  rw [mcpTools, if_neg hallow, k.mcp.cached]
  refine filter_flatMap fun c hc t ht => ?_
  rw [k.mcp.extractMcpServer_tool hc ht]
  exact contains_eq_mem _ _

/-- **What the allowlist of servers admits**: it compares what stands before an underscore. -/
theorem mcpAllowlist_iff (order : IterOrder (String × InstalledSkill J)) (agentId : AgentId)
    (manifest : AgentManifest) (hagent : k.registry.lookup agentId = some manifest)
    (hall : .toolAll ∈ k.capabilities.list agentId) (hallow : manifest.mcpServers ≠ []) :
    k.availableTools order agentId =
        k.profileTools manifest ++ k.skillTools order manifest ++
          k.toolsOfAllowed manifest.mcpServers ↔
      ∀ c ∈ k.mcp.connections, c.tools ≠ [] →
        (Allowed lower manifest.mcpServers c.name ↔
          firstPart (normalizeName lower c.name) ∈
            manifest.mcpServers.map (normalizeName lower)) := by
  have hmanifest : k.manifestOf agentId = manifest := by
    rw [manifestOf, hagent, Option.getD_some]
  have havailable : k.availableTools order agentId = k.candidates order agentId :=
    if_pos (any_eq_true.mpr ⟨_, hall, by simp⟩)
  rw [havailable, candidates, hmanifest, append_cancel_left_eq, mcpTools_eq k manifest hallow,
    toolsOfAllowed]
  refine ⟨fun heq => ?_, fun h => ?_⟩
  · -- a tool of an allowed server is among those that are kept, and tells the part of the name
    have hkept : ∀ c ∈ k.mcp.connections, c.tools ≠ [] →
        decide (Allowed lower manifest.mcpServers c.name) = true →
        decide (firstPart (normalizeName lower c.name) ∈
          manifest.mcpServers.map (normalizeName lower)) = true := by
      intro c hc htools hallowed
      obtain ⟨t, ht⟩ := exists_mem_of_ne_nil _ htools
      have hmem : t ∈ k.mcpTools manifest := by
        rw [mcpTools_eq k manifest hallow, heq]
        exact mem_flatMap.mpr ⟨c, mem_filter.mpr ⟨hc, hallowed⟩, ht⟩
      rw [mcpTools, if_neg hallow] at hmem
      have hkeep := (mem_filter.mp hmem).2
      rw [k.mcp.extractMcpServer_tool hc ht] at hkeep
      exact decide_eq_true (contains_iff_mem.mp hkeep)
    have hback := of_flatMap_filter_eq hkept heq
    intro c hc htools
    simpa using Iff.intro (hkept c hc htools) (hback c hc htools)
  · refine flatMap_filter_congr fun c hc htools => ?_
    rw [Bool.eq_iff_iff, decide_eq_true_iff, decide_eq_true_iff]
    exact (h c hc htools).symm

/-! ## The skill that is run -/

/-- `execute_tool` on a tool of a skill, behind the built-in tools and those of MCP servers. What
the agent is offered comes from the registry of the kernel, in the order `shown`; what is run comes
from a snapshot with the skills of the workspace, in an order of its own. -/
def runsSkill (workspace : List (SkillManifest J))
    (shown order : IterOrder (String × InstalledSkill J)) (agentId : AgentId)
    (toolName : Mcp.Name) : Option (InstalledSkill J × SkillToolDef J) :=
  if (k.availableTools shown agentId).any (fun t => t.name = toolName) &&
      !k.builtins.any (fun t => t.name = toolName) && !isMcpTool toolName then
    ((k.skillRegistry.loadWorkspaceSkills workspace).findToolProvider order toolName).bind fun s =>
      (s.provided.find? fun t => t.name = toolName).map fun t => (s, t)
  else none

/-- A call of the tool is allowed, and goes to a skill. -/
structure CallsSkill (agentId : AgentId) (toolName : Mcp.Name) : Prop where
  allowed : ∃ t ∈ k.availableTools (.stored _) agentId, t.name = toolName
  notBuiltin : ∀ t ∈ k.builtins, t.name ≠ toolName
  notMcp : isMcpTool toolName = false

/-- The skill under a name: the last one of the workspace, or else that of the kernel. -/
def skillAt (workspace : List (SkillManifest J)) (key : String) : Option (InstalledSkill J) :=
  let own := if k.skillRegistry.frozen then none else workspace.reverse.find? fun m => m.name = key
  (own.map SkillManifest.installed).or (k.skillRegistry.skills.lookup key)

/-- An enabled skill defines the tool; of several definitions the first one counts. -/
structure Provides (workspace : List (SkillManifest J)) (toolName : Mcp.Name)
    (s : InstalledSkill J) (d : SkillToolDef J) : Prop where
  installed : ∃ key, k.skillAt workspace key = some s
  enabled : s.enabled
  definition : s.provided.find? (fun t => t.name = toolName) = some d

variable {k} {agentId : AgentId} {toolName : Mcp.Name} {workspace : List (SkillManifest J)}
  {shown order : IterOrder (String × InstalledSkill J)}

theorem lookup_loadWorkspaceSkills (key : String) :
    (k.skillRegistry.loadWorkspaceSkills workspace).skills.lookup key =
      k.skillAt workspace key := by
  have hload (t : Table String (InstalledSkill J)) :
      (workspace.foldl (fun t m => t.insert m.name m.installed) t).lookup key =
        ((workspace.reverse.find? fun m => m.name = key).map SkillManifest.installed).or
          (t.lookup key) := by
    induction workspace generalizing t with
    | nil => rfl
    | cons m workspace ih =>
      rw [foldl_cons, ih, reverse_cons, find?_append, Table.lookup_insert_eq]
      by_cases hkey : m.name = key
      · cases workspace.reverse.find? fun m => m.name = key <;> simp [hkey]
      · cases workspace.reverse.find? fun m => m.name = key <;> simp [hkey, Ne.symm hkey]
  rw [SkillRegistry.loadWorkspaceSkills, skillAt]
  split
  · rfl
  · exact hload _

theorem mem_availableTools :
    t ∈ k.availableTools order agentId ↔ t ∈ k.availableTools (.stored _) agentId := by
  have hskills : (k.skillTools order (k.manifestOf agentId)).Perm
      (k.skillTools (.stored _) (k.manifestOf agentId)) := by
    rw [skillTools, skillTools]
    split
    all_goals exact (((order.perm _).filter _).flatMap_right _).map _
  simp only [availableTools_eq_filter, mem_filter, candidates, mem_append, hskills.mem_iff]

theorem runsSkill_eq_some :
    k.runsSkill workspace shown order agentId toolName = some (s, d) ↔
      k.CallsSkill agentId toolName ∧
      (k.skillRegistry.loadWorkspaceSkills workspace).findToolProvider order toolName = some s ∧
        s.provided.find? (fun t => t.name = toolName) = some d := by
  have hcall : ((k.availableTools shown agentId).any (fun t => t.name = toolName) &&
      !k.builtins.any (fun t => t.name = toolName) && !isMcpTool toolName) = true ↔
      k.CallsSkill agentId toolName := by
    simp only [Bool.and_eq_true, Bool.not_eq_true', any_eq_true, any_eq_false, decide_eq_true_eq,
      mem_availableTools]
    exact ⟨fun h => ⟨h.1.1, h.1.2, h.2⟩, fun h => ⟨⟨h.1, h.2⟩, h.3⟩⟩
  rw [runsSkill, Option.ite_none_right_eq_some, hcall]
  simp [Option.bind_eq_some_iff]

/-- Whichever skill defines the tool, there is an order of the map in which it is run. -/
theorem exists_runsSkill_iff :
    (∃ order, k.runsSkill workspace shown order agentId toolName = some (s, d)) ↔
      k.CallsSkill agentId toolName ∧ k.Provides workspace toolName s d := by
  simp only [runsSkill_eq_some, exists_and_left, exists_and_right, SkillRegistry.findToolProvider,
    Option.map_eq_some_iff]
  refine and_congr_right fun _ => ⟨?_, fun h => ⟨?_, h.definition⟩⟩
  · rintro ⟨⟨order, ⟨key, _⟩, hfound, rfl⟩, hdef⟩
    have hmem := mem_of_find?_eq_some hfound
    rw [IterOrder.mem_arrange, Table.mem_pairs, lookup_loadWorkspaceSkills] at hmem
    have hprovider := find?_some hfound
    exact ⟨⟨key, hmem⟩, (Bool.and_eq_true_iff.mp hprovider).1, hdef⟩
  · obtain ⟨key, hkey⟩ := h.installed
    rw [← lookup_loadWorkspaceSkills] at hkey
    refine ⟨⟨fun l => l.filter (fun e => e.1 = key) ++ l.filter fun e => !decide (e.1 = key),
      filter_append_perm _⟩, (key, s), ?_, rfl⟩
    -- the skill is the only one under its key
    have hmem : (key, s) ∈ ((k.skillRegistry.loadWorkspaceSkills workspace).skills.pairs.filter
        fun e => e.1 = key) := by
      simpa using Table.mem_pairs.mpr hkey
    have hname := find?_some h.definition
    have hdefines : s.provided.any (fun t => t.name = toolName) = true :=
      any_eq_true.mpr ⟨d, mem_of_find?_eq_some h.definition, hname⟩
    have hsome := (@find?_isSome _ _ fun e : String × InstalledSkill J => e.2.enabled &&
      e.2.provided.any fun t => t.name = toolName).mpr
      ⟨_, hmem, Bool.and_eq_true_iff.mpr ⟨h.enabled, hdefines⟩⟩
    obtain ⟨⟨key', s'⟩, hfound⟩ := Option.isSome_iff_exists.mp hsome
    have hfound' := mem_of_find?_eq_some hfound
    rw [mem_filter, Table.mem_pairs, decide_eq_true_eq] at hfound'
    obtain ⟨hlookup, rfl⟩ := hfound'
    cases hkey.symm.trans hlookup
    rw [find?_append, hfound, Option.some_or]

end Kernel

end

def oneAgent (servers : List (Server Unit)) (allowlist : List Mcp.Name) : Kernel asciiLower () where
  builtins := []
  registry := AList.singleton "agent1" ⟨[], allowlist, none⟩
  capabilities := ⟨AList.singleton "agent1" [.toolAll]⟩
  skillRegistry := ⟨∅, false⟩
  mcp := servers.foldl McpState.connect (McpState.new asciiLower ())

theorem github_allowed :
    (oneAgent [github] ["GitHub".toList]).availableTools (.stored _) "agent1" =
      [] ++ [] ++ (oneAgent [github] ["GitHub".toList]).toolsOfAllowed ["GitHub".toList] :=
  ((oneAgent [github] ["GitHub".toList]).mcpAllowlist_iff (.stored _) "agent1"
    ⟨[], ["GitHub".toList], none⟩ rfl (by decide) (by decide)).mpr (by decide)

/-- A server with a hyphen in its name is admitted by the name of another server. -/
theorem hyphen_not_allowed :
    (oneAgent [oneTool "my-server" "do_thing"] ["my-server".toList]).availableTools (.stored _)
        "agent1" = [] ∧
      ((oneAgent [oneTool "my-server" "do_thing"] ["my".toList]).availableTools (.stored _)
        "agent1").map Mcp.ToolDefinition.name = ["mcp_my_server_do_thing".toList] := by
  decide +kernel

def deploySkill (name description : String) : InstalledSkill Unit :=
  ⟨name, [⟨"deploy".toList, description, ()⟩], true⟩

end AvailableTools

end AlloyAgent
