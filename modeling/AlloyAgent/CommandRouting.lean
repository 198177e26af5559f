import AlloyAgent.ChannelBridge

/-!
# The agent of a command

A text is routed by the channel on which it comes in. The commands that act on the agent of a user
(`/new`, `/compact`, `/model`, `/stop`, `/usage`, `/think`) are not told the channel: they route as
if the user had written on the command line.

* `commands_follow_iff`: the routers with which the two agree.
-/

namespace AlloyAgent

namespace Channels

open List

namespace AgentRouter

variable (debugStr : String → String) (r : AgentRouter) (channel : ChannelType) (user : String)

/-- The agents to which the rules for a channel lead a user. -/
def ruled : List AgentId :=
  (r.bindings.filter fun b =>
      bindingMatches b ⟨channelTypeStr channel, none, user, none, []⟩).filterMap
    (fun b => r.agentNameCache.lookup b.agent) ++
  (r.directRoutes.lookup (channel.debug debugStr, user)).toList

def fallback (userKey : Option String) : Option AgentId :=
  (userKey.bind fun key => r.userDefaults.lookup key).or <|
    (r.userDefaults.lookup user).or r.defaultAgent

variable {debugStr r channel user}

theorem resolve_eq : r.resolve debugStr channel user userKey =
    (r.ruled debugStr channel user).head?.or (r.fallback user userKey) := by
  rw [resolve, resolveBinding, ruled, head?_append, filterMap_filter, head?_filterMap]
  rw [Option.head?_toList, Option.or_assoc]
  rfl

theorem or_eq_or_iff : x.or z = y.or z ↔ x = y ∨ (x = none ∧ y = z) ∨ (y = none ∧ x = z) := by
  cases x <;> cases y <;> simp [eq_comm]

end AgentRouter

variable {σ : Type} (handle : ChannelBridgeHandle σ) (debugStr : String → String)

/-- `/agent` reports that it has found the agent, or spawned it. -/
def Selects (agentName : String) (w : World σ) (agentId : AgentId) : Prop :=
  handle.findAgentByName agentName w.kernel = .ok (some agentId) ∨
    handle.findAgentByName agentName w.kernel = .ok none ∧
      (handle.spawnAgentByName agentName w.kernel).1 = .ok agentId

/-- The rules of channel and command line lead to one agent, or one of them to the default. -/
def SameRules (w : World σ) (channel : ChannelType) (sender : ChannelUser) : Prop :=
  let rules (c : ChannelType) := (w.router.ruled debugStr c sender.platformId).head?
  let default := w.router.fallback sender.platformId sender.openfangUser
  rules .cli = rules channel ∨ (rules .cli = none ∧ rules channel = default) ∨
    (rules channel = none ∧ rules .cli = default)

/-- Nothing that comes before the default under the platform id leads to another agent. -/
def NotOverruled (w : World σ) (channel : ChannelType) (sender : ChannelUser)
    (agentId : AgentId) : Prop :=
  match (w.router.ruled debugStr channel sender.platformId).head? with
  | some a => a = agentId
  | none => ∀ key, sender.openfangUser = some key → key ≠ sender.platformId →
      ∀ a, w.router.userDefaults.lookup key = some a → a = agentId

variable {handle debugStr}

theorem router_of_selects (sender : ChannelUser) (h : Selects handle agentName w agentId) :
    (selectAgent handle agentName sender w).2.router =
      w.router.setUserDefault sender.platformId agentId := by
  rcases h with h | ⟨h, hspawn⟩
  · rw [selectAgent, h]
  · rw [selectAgent, h]
    dsimp only [World.perform]
    rw [hspawn]

theorem resolve_setUserDefault :
    (w.router.setUserDefault sender.platformId agentId).resolve debugStr channel
        sender.platformId sender.openfangUser = some agentId ↔
      NotOverruled debugStr w channel sender agentId := by
  have hruled : (w.router.setUserDefault sender.platformId agentId).ruled debugStr channel
      sender.platformId = w.router.ruled debugStr channel sender.platformId := rfl
  rw [AgentRouter.resolve_eq, hruled, NotOverruled]
  cases (w.router.ruled debugStr channel sender.platformId).head? with
  | some a => simp
  | none =>
    rw [Option.none_or, AgentRouter.fallback, AgentRouter.setUserDefault]
    dsimp only
    rw [AList.lookup_insert, Option.some_or]
    cases sender.openfangUser with
    | none => simp
    | some key =>
      by_cases hkey : key = sender.platformId
      · simp [hkey]
      · rw [Option.bind_some, AList.lookup_insert_ne hkey]
        cases hdefault : w.router.userDefaults.lookup key with
        | none => simp [hkey, hdefault]
        | some a => simp [hkey, hdefault]

/-- **When commands act on the agent the user is talking to.** -/
theorem commands_follow_iff (handle : ChannelBridgeHandle σ) (debugStr : String → String)
    (w : World σ) (channel : ChannelType) (sender : ChannelUser) (agentName : String) :
    (w.currentAgent debugStr sender = w.textAgent debugStr channel sender ∧
        ∀ agentId, Selects handle agentName w agentId →
          (selectAgent handle agentName sender w).2.textAgent debugStr channel sender =
            some agentId) ↔
      SameRules debugStr w channel sender ∧
        ∀ agentId, Selects handle agentName w agentId →
          NotOverruled debugStr w channel sender agentId := by
  refine and_congr ?_ (forall₂_congr fun agentId hselects => ?_)
  · rw [World.currentAgent, World.textAgent, AgentRouter.resolve_eq, AgentRouter.resolve_eq]
    exact AgentRouter.or_eq_or_iff
  · rw [World.textAgent, router_of_selects sender hselects]
    exact resolve_setUserDefault

def boundToCoder : World Unit :=
  { oneAgent with
    router :=
      { AgentRouter.new with
        defaultAgent := some "a2"
        bindings := [⟨"coder", some "telegram", none, none, none, []⟩]
        agentNameCache := (∅ : Table String AgentId).insert "coder" "a1" } }

/-- `/new` resets the session of the default agent, and texts go to the other one. -/
theorem talks_to_another :
    let handle := { closedKernel with findAgentByName := fun _ _ => .ok (some "a2") }
    let sender : ChannelUser := ⟨"4711", none⟩
    boundToCoder.currentAgent id sender = some "a2" ∧
      boundToCoder.textAgent id .telegram sender = some "a1" ∧
      (selectAgent handle "writer" sender boundToCoder).1 = "Now talking to agent: writer" ∧
      (selectAgent handle "writer" sender boundToCoder).2.textAgent id .telegram sender =
        some "a1" := by
  refine ⟨by decide, by decide, rfl, by decide⟩

end Channels

end AlloyAgent
