import AlloyAgent.AvailableTools
import AlloyAgent.HostFunctions
import AlloyAgent.Transition

/-!
# Agents that spawn agents

A WASM guest spawns an agent through `host_agent_spawn`. The kernel derives the capabilities of the
child from its manifest and compares them with those of the guest.

* `step`: guests start, spawn and end, agents are killed;
* `spawned_subsumed`: no run makes anyone capable of something new.
-/

namespace AlloyAgent.SpawnTree

open List AvailableTools HostFunctions Transition

structure ManifestCapabilities where
  (network tools memoryRead memoryWrite agentMessage shell ofpConnect : List String)
  (agentSpawn ofpDiscover : Bool)

structure AgentManifest where
  profile : Option ToolProfile
  capabilities : ManifestCapabilities

def impliedCapabilities (profile : ToolProfile) : ManifestCapabilities :=
  let tools := profile.tools
  let hasTool (start : String) := tools.any fun t => start.toList.isPrefixOf t.toList || t = "*"
  let hasShell := tools.any fun t => t = "shell_exec" || t = "*"
  { tools
    network := if hasTool "web_" then ["*"] else []
    shell := if hasShell then ["*"] else []
    agentSpawn := hasTool "agent_"
    agentMessage := if hasTool "agent_" then ["*"] else []
    memoryRead := if hasTool "memory_" then ["*"] else ["self.*"]
    memoryWrite := ["self.*"]
    ofpDiscover := false
    ofpConnect := [] }

/-- A profile counts if no tools are named. What else is named then replaces its part. -/
def effectiveCapabilities (manifest : AgentManifest) : ManifestCapabilities :=
  let own := manifest.capabilities
  match manifest.profile with
  | none => own
  | some profile =>
    if own.tools.isEmpty then
      let merged := impliedCapabilities profile
      let override (named implied : List String) := if named.isEmpty then implied else named
      { merged with
        network := override own.network merged.network
        shell := override own.shell merged.shell
        agentMessage := override own.agentMessage merged.agentMessage
        agentSpawn := own.agentSpawn || merged.agentSpawn
        memoryRead := override own.memoryRead merged.memoryRead
        memoryWrite := override own.memoryWrite merged.memoryWrite
        ofpDiscover := own.ofpDiscover || merged.ofpDiscover
        ofpConnect := override own.ofpConnect merged.ofpConnect }
    else own

/-- Convert a manifest's capability declarations. -/
def manifestToCapabilities (manifest : AgentManifest) : List Capability :=
  let caps := effectiveCapabilities manifest
  caps.network.map .netConnect ++ caps.tools.map .toolInvoke ++
    caps.memoryRead.map .memoryRead ++ caps.memoryWrite.map .memoryWrite ++
    (if caps.agentSpawn then [.agentSpawn] else []) ++ caps.agentMessage.map .agentMessage ++
    caps.shell.map .shellExec ++ (if caps.ofpDiscover then [.ofpDiscover] else []) ++
    caps.ofpConnect.map .ofpConnect

inductive SpawnError where
  | host (error : HostError)
  | escalation (error : EscalationDenied)

/-- `spawn_agent_checked` up to the spawn: the capabilities that the child is granted. The manifest
may be no TOML. -/
def spawnAgentChecked (parentCaps : List Capability) :
    Except String AgentManifest → Except SpawnError (List Capability)
  | .error e => .error (.host (.message s!"Invalid manifest: {e}"))
  | .ok manifest =>
    match validateCapabilityInheritance parentCaps (manifestToCapabilities manifest) with
    | .error e => .error (.escalation e)
    | .ok () => .ok (manifestToCapabilities manifest)

def hostAgentSpawn (capabilities : List Capability) (hasKernel : Bool)
    (manifest : Option (Except String AgentManifest)) : Except SpawnError (List Capability) :=
  match checkCapability capabilities .agentSpawn, manifest, hasKernel with
  | .error e, _, _ => .error (.host e)
  | .ok (), none, _ => .error (.host (.message "Missing 'manifest' parameter"))
  | .ok (), some _, false => .error (.host (.message "No kernel handle available"))
  | .ok (), some manifest, true => spawnAgentChecked capabilities manifest

inductive Event where
  /-- a guest of an agent starts -/
  | start (agentId : AgentId)
  /-- a guest asks for an agent, which would get the id `child` -/
  | spawn (guest : ℕ) (child : AgentId) (hasKernel : Bool)
      (manifest : Option (Except String AgentManifest))
  | kill (agentId : AgentId)

/-- What the agents have been granted, and the capabilities that each guest was started with. -/
structure State where
  manager : CapabilityManager
  guests : List (List Capability)

/-- A guest starts with the capabilities of its manifest, which are those its agent has been
granted, and keeps them when the agent is killed. Ids of new agents are fresh. -/
def step (s : State) : Event → Option State
  | .start agentId => some { s with guests := s.guests ++ [s.manager.list agentId] }
  | .spawn guest child hasKernel manifest =>
    if (s.manager.grants.lookup child).isSome then none
    else
      s.guests[guest]?.map fun capabilities =>
        match hostAgentSpawn capabilities hasKernel manifest with
        | .ok caps => { s with manager := s.manager.grant child caps }
        | .error _ => s
  | .kill agentId => some { s with manager := ⟨s.manager.grants.erase agentId⟩ }

variable {caps : List Capability}

theorem hostAgentSpawn_eq_ok (h : hostAgentSpawn capabilities hasKernel manifest = .ok caps) :
    ∃ given, manifest = some (.ok given) ∧ caps = manifestToCapabilities given ∧
      validateCapabilityInheritance capabilities caps = .ok () := by
  unfold hostAgentSpawn at h
  split at h
  · cases h
  · cases h
  · cases h
  · rename_i manifest _
    cases manifest with
    | error e => cases h
    | ok given =>
      rw [spawnAgentChecked] at h
      split at h
      · cases h
      · rename_i hvalid
        cases h
        exact ⟨given, rfl, rfl, hvalid⟩

/-- No pattern has more than one star. -/
def SingleStar (caps : List Capability) : Prop :=
  ∀ k w, GlobKind.capability k w ∈ caps → w.toList.count '*' ≤ 1

/-- One of the `roots` can do all that is granted, and no pattern has two stars. -/
structure Bounded (roots : CapabilityManager) (caps : List Capability) : Prop where
  singleStar : SingleStar caps
  bounded : ∃ root, Subsumed (roots.list root) caps

theorem bounded_nil (roots : CapabilityManager) : Bounded roots [] :=
  ⟨fun _ _ hw => absurd hw not_mem_nil, "", fun _ ⟨_, hc, _⟩ => absurd hc not_mem_nil⟩

def Event.SingleStar : Event → Prop
  | .spawn _ _ _ (some (.ok manifest)) => SpawnTree.SingleStar (manifestToCapabilities manifest)
  | _ => True

variable {roots m : CapabilityManager} {s s' : State}

theorem list_grant (child a : AgentId) :
    (m.grant child caps).list a = if a = child then caps else m.list a := by
  rw [CapabilityManager.list, CapabilityManager.grant, Table.lookup_insert_eq]
  split <;> rfl

theorem list_erase (agentId a : AgentId) :
    CapabilityManager.list ⟨m.grants.erase agentId⟩ a = if a = agentId then [] else m.list a := by
  rw [CapabilityManager.list, Table.lookup_erase_eq]
  split <;> rfl

/-- What holds of all agents and all guests. -/
structure AllBounded (roots : CapabilityManager) (s : State) : Prop where
  agent : ∀ a, Bounded roots (s.manager.list a)
  guest : ∀ caps ∈ s.guests, Bounded roots caps

theorem allBounded_step {e : Event} (h : AllBounded roots s) (he : e.SingleStar)
    (hstep : step s e = some s') : AllBounded roots s' := by
  cases e with
  | start agentId =>
    cases hstep
    exact ⟨h.agent, forall_mem_append.mpr ⟨h.guest, forall_mem_singleton.mpr (h.agent agentId)⟩⟩
  | spawn guest child hasKernel manifest =>
    rw [step] at hstep
    split at hstep
    · cases hstep
    obtain ⟨capabilities, hguest, rfl⟩ := Option.map_eq_some_iff.mp hstep
    split
    · rename_i caps hcaps
      refine ⟨fun a => ?_, h.guest⟩
      obtain ⟨given, rfl, rfl, hvalid⟩ := hostAgentSpawn_eq_ok hcaps
      obtain ⟨hstars, root, hroot⟩ := h.guest _ (mem_of_getElem? hguest)
      have hchild := subsumed_of_single_star hstars hvalid
      rw [list_grant]
      split
      · exact ⟨he, root, fun r hr => hroot r (hchild r hr)⟩
      · exact h.agent a
    · exact h
  | kill agentId =>
    cases hstep
    refine ⟨fun a => ?_, h.guest⟩
    rw [list_erase]
    split
    · exact bounded_nil roots
    · exact h.agent a

/-- **Spawning does not escalate**: whichever guests spawn agents and whoever is killed, in any
order, no agent and no guest can do what none could do at the beginning, if no pattern has two
stars. -/
theorem spawned_subsumed (roots : CapabilityManager) (events : List Event) (s : State)
    (hroots : ∀ a, SingleStar (roots.list a)) (hevents : ∀ e ∈ events, e.SingleStar)
    (hrun : run step ⟨roots, []⟩ events = some s) :
    (∀ a, ∃ root, Subsumed (roots.list root) (s.manager.list a)) ∧
      ∀ caps ∈ s.guests, ∃ root, Subsumed (roots.list root) caps := by
  have hstart : AllBounded roots ⟨roots, []⟩ :=
    ⟨fun a => ⟨hroots a, a, fun _ h => h⟩, fun _ h => absurd h not_mem_nil⟩
  have hbounded : (∀ e ∈ events, e.SingleStar) → AllBounded roots s := by
    refine @run_history _ _ step (fun past s => (∀ e ∈ past, e.SingleStar) → AllBounded roots s)
      (fun past s e s' hb hstep hpast => ?_) events [] _ _ (fun _ => hstart) hrun
    exact allBounded_step (hb fun e' he' => hpast e' (mem_append_left _ he'))
      (hpast e (mem_append_right _ mem_cons_self)) hstep
  have hall := hbounded hevents
  exact ⟨fun a => (hall.agent a).bounded, fun caps hcaps => (hall.guest caps hcaps).bounded⟩

def operator : CapabilityManager := ⟨(∅ : Table _ _).insert "root" [.agentSpawn, .toolInvoke "*"]⟩

/-- The first guest asks for an agent with these tools. -/
def helper (tools : List String) : Event :=
  .spawn 0 "a" true (some (.ok ⟨none, [], tools, [], [], [], [], [], true, false⟩))

/-- The root is killed while its guest is running. -/
theorem helper_subsumed :
    ∃ s, run step ⟨operator, []⟩ [.start "root", .kill "root", helper ["file_read"]] = some s ∧
      s.manager.list "a" = [.toolInvoke "file_read", .agentSpawn] ∧
      ∃ root, Subsumed (operator.list root) (s.manager.list "a") := by
  refine ⟨_, rfl, by decide, (spawned_subsumed operator
    [.start "root", .kill "root", helper ["file_read"]] _ (fun a k w hw => ?_) ?_ rfl).1 "a"⟩
  · rw [operator, CapabilityManager.list, Table.lookup_insert_eq] at hw
    split at hw
    · cases k <;> simp [GlobKind.capability] at hw
    · cases hw
  · refine forall_mem_cons.mpr ⟨trivial, forall_mem_cons.mpr ⟨trivial, ?_⟩⟩
    refine forall_mem_singleton.mpr fun k w hw => ?_
    have hcaps : k.capability w ∈ [Capability.toolInvoke "file_read", .agentSpawn] := hw
    cases k <;> simp [GlobKind.capability] at hcaps

end AlloyAgent.SpawnTree
