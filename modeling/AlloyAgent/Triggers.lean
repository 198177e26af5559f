import AlloyAgent.Binary64
import AlloyAgent.OwnerIndex
import AlloyAgent.Transition
import AlloyAgent.Workflow

/-!
# Event-driven triggers

An agent registers triggers: a pattern of events, a prompt, and how often it may fire at most.

* `evaluateLoop`: the loop over all triggers; `step`: any call of the engine;
* `run_sound`: the index is exact and limits are kept, in every run.
-/

namespace AlloyAgent

open List Option

namespace Triggers

open RustStr Workflow

inductive MessageRole where
  | user | agent | system | tool
  deriving DecidableEq

def MessageRole.debug : MessageRole → String
  | .user => "User"
  | .agent => "Agent"
  | .system => "System"
  | .tool => "Tool"

inductive MemoryOperation where
  | created | updated | deleted
  deriving DecidableEq

def MemoryOperation.debug : MemoryOperation → String
  | .created => "Created"
  | .updated => "Updated"
  | .deleted => "Deleted"

structure AgentMessage where
  content : String
  role : MessageRole

structure ToolOutput where
  toolId : String
  content : String
  success : Bool
  executionTimeMs : ℕ

structure MemoryDelta where
  operation : MemoryOperation
  key : String
  agentId : AgentId

inductive LifecycleEvent where
  | spawned (agentId : AgentId) (name : String)
  | started (agentId : AgentId)
  | suspended (agentId : AgentId)
  | resumed (agentId : AgentId)
  | terminated (agentId : AgentId) (reason : String)
  | crashed (agentId : AgentId) (error : String)

inductive NetworkEvent where
  | peerConnected (peerId : String)
  | peerDisconnected (peerId : String)
  | messageReceived (fromPeer fromAgent : String)
  | discoveryResult (service : String) (providers : List String)

/-- System-level event; `usagePercent` is an `f32`. -/
inductive SystemEvent where
  | kernelStarted
  | kernelStopping
  | quotaWarning (agentId : AgentId) (resource : String) (usagePercent : BitVec 32)
  | healthCheck (status : String)
  | quotaEnforced (agentId : AgentId) (spent limit : Binary64)
  | modelRouted (agentId : AgentId) (complexity model : String)
  | userAction (userId action result : String)
  | healthCheckFailed (agentId : AgentId) (unresponsiveSecs : ℕ)

inductive EventPayload where
  | message (msg : AgentMessage)
  | toolResult (result : ToolOutput)
  | memoryUpdate (delta : MemoryDelta)
  | lifecycle (event : LifecycleEvent)
  | network (event : NetworkEvent)
  | system (event : SystemEvent)
  | custom (data : List UInt8)

/-- How values are printed that the engine does not print itself, and `to_lowercase`. -/
structure Printing where
  debugNetwork : NetworkEvent → String
  debugSystem : SystemEvent → String
  /-- `{:.1}` of an `f32` -/
  fixed1 : BitVec 32 → String
  /-- `{:.4}` of an `f64` -/
  fixed4 : Binary64 → String
  toLowercase : String → String

def describeLifecycle : LifecycleEvent → String
  | .spawned agentId name => "Agent '" ++ name ++ "' (id: " ++ agentId.uuid ++ ") was spawned"
  | .started agentId => "Agent " ++ agentId.uuid ++ " started"
  | .suspended agentId => "Agent " ++ agentId.uuid ++ " suspended"
  | .resumed agentId => "Agent " ++ agentId.uuid ++ " resumed"
  | .terminated agentId reason => "Agent " ++ agentId.uuid ++ " terminated: " ++ reason
  | .crashed agentId error => "Agent " ++ agentId.uuid ++ " crashed: " ++ error

def describeSystem (p : Printing) : SystemEvent → String
  | .kernelStarted => "Kernel started"
  | .kernelStopping => "Kernel stopping"
  | .quotaWarning agentId resource usagePercent =>
    "Quota warning: agent " ++ agentId.uuid ++ ", " ++ resource ++ " at " ++
      p.fixed1 usagePercent ++ "%"
  | .healthCheck status => "Health check: " ++ status
  | .quotaEnforced agentId spent limit =>
    "Quota enforced: agent " ++ agentId.uuid ++ ", spent $" ++ p.fixed4 spent ++ " / $" ++
      p.fixed4 limit
  | .modelRouted agentId complexity model =>
    "Model routed: agent " ++ agentId.uuid ++ ", complexity=" ++ complexity ++ ", model=" ++ model
  | .userAction userId action result =>
    "User action: " ++ userId ++ " " ++ action ++ " -> " ++ result
  | .healthCheckFailed agentId unresponsiveSecs =>
    "Health check failed: agent " ++ agentId.uuid ++ ", unresponsive for " ++
      toString unresponsiveSecs ++ "s"

/-- A description of an event; `none` if the content of a tool result is cut inside a character. -/
def describeEvent (p : Printing) : EventPayload → Option String
  | .message msg => some ("Message from " ++ msg.role.debug ++ ": " ++ msg.content)
  | .toolResult tr =>
    (takeBytes? (min (utf8Len tr.content.toList) 200) tr.content.toList).map fun head =>
      "Tool '" ++ tr.toolId ++ "' " ++ (if tr.success then "succeeded" else "failed") ++ " (" ++
        toString tr.executionTimeMs ++ "ms): " ++ String.ofList head
  | .memoryUpdate delta =>
    some ("Memory " ++ delta.operation.debug ++ " on key '" ++ delta.key ++ "' for agent " ++
      delta.agentId.uuid)
  | .lifecycle event => some (describeLifecycle event)
  | .network event => some ("Network event: " ++ p.debugNetwork event)
  | .system event => some (describeSystem p event)
  | .custom data => some ("Custom event (" ++ toString data.length ++ " bytes)")

structure TriggerId where
  uuid : ℕ
  deriving DecidableEq

/-- What kind of events a trigger matches on. -/
inductive TriggerPattern where
  | lifecycle
  | agentSpawned (namePattern : String)
  | agentTerminated
  | system
  | systemKeyword (keyword : String)
  | memoryUpdate
  | memoryKeyPattern (keyPattern : String)
  | all
  | contentMatch (substring : String)
  deriving DecidableEq

structure Trigger where
  id : TriggerId
  agentId : AgentId
  pattern : TriggerPattern
  promptTemplate : String
  enabled : Bool
  createdAt : ℕ
  fireCount : UInt64
  /-- Maximum number of times this trigger can fire (0 = unlimited). -/
  maxFires : UInt64
  deriving DecidableEq

/-- The triggers, and which of them each agent has. -/
structure TriggerEngine where
  triggers : Table TriggerId Trigger
  agentTriggers : Table AgentId (List TriggerId)

/-- `contains`, or the pattern is a star. -/
def containsOrStar (text pattern : String) : Bool :=
  contains text.toList pattern.toList || decide (pattern = "*")

/-- Check if an event matches a trigger pattern. -/
def matchesPattern (p : Printing) (pattern : TriggerPattern) (event : EventPayload)
    (description : String) : Bool :=
  match pattern, event with
  | .all, _ => true
  | .lifecycle, .lifecycle _ => true
  | .agentSpawned namePattern, .lifecycle (.spawned _ name) => containsOrStar name namePattern
  | .agentTerminated, .lifecycle (.terminated _ _) => true
  | .agentTerminated, .lifecycle (.crashed _ _) => true
  | .system, .system _ => true
  | .systemKeyword keyword, .system event =>
    contains (p.toLowercase (p.debugSystem event)).toList (p.toLowercase keyword).toList
  | .memoryUpdate, .memoryUpdate _ => true
  | .memoryKeyPattern keyPattern, .memoryUpdate delta => containsOrStar delta.key keyPattern
  | .contentMatch substring, _ =>
    contains (p.toLowercase description).toList (p.toLowercase substring).toList
  | _, _ => false

/-- A message of a trigger, and the trigger that it comes from. -/
abbrev Sent := TriggerId × AgentId × String

inductive Abort where
  | sliceInsideCharacter
  | fireCountOverflow
  deriving DecidableEq

/-- `fire_count += 1`, in a build with or without overflow checks. -/
def countFire (checks : Bool) (fireCount : UInt64) : Except Abort UInt64 :=
  if checks ∧ fireCount.toNat + 1 = UInt64.size then .error .fireCountOverflow
  else .ok (fireCount + 1)

/-- The turn of one trigger: what becomes of it, and its message if it fires. -/
def turn (p : Printing) (checks : Bool) (event : EventPayload) (description : String)
    (t : Trigger) : Except Abort (Trigger × Option (AgentId × String)) :=
  if !t.enabled then .ok (t, none)
  else if 0 < t.maxFires ∧ t.maxFires ≤ t.fireCount then .ok ({ t with enabled := false }, none)
  else if matchesPattern p t.pattern event description then do
    let message := replaceAll t.promptTemplate (reference "event") description
    let fireCount ← countFire checks t.fireCount
    .ok ({ t with fireCount := fireCount }, some (t.agentId, message))
  else .ok (t, none)

/-- The loop over the triggers: the table as it is left, and the messages unless it aborts. -/
def evaluateLoop (p : Printing) (checks : Bool) (event : EventPayload) (description : String) :
    List (TriggerId × Trigger) → Table TriggerId Trigger → List Sent →
      Table TriggerId Trigger × Except Abort (List Sent)
  | [], triggers, sent => (triggers, .ok sent)
  | (id, t) :: rest, triggers, sent =>
    match turn p checks event description t with
    | .error e => (triggers, .error e)
    | .ok (t', none) => evaluateLoop p checks event description rest (triggers.insert id t') sent
    | .ok (t', some m) =>
      evaluateLoop p checks event description rest (triggers.insert id t') (sent ++ [(id, m)])

namespace TriggerEngine

def new : TriggerEngine := ⟨∅, ∅⟩

def register (engine : TriggerEngine) (id : TriggerId) (agentId : AgentId)
    (pattern : TriggerPattern) (promptTemplate : String) (maxFires : UInt64) (now : ℕ) :
    TriggerEngine where
  triggers := engine.triggers.insert id
    ⟨id, agentId, pattern, promptTemplate, true, now, 0, maxFires⟩
  agentTriggers := engine.agentTriggers.push agentId id

def remove (engine : TriggerEngine) (triggerId : TriggerId) : TriggerEngine × Bool :=
  match engine.triggers.lookup triggerId with
  | none => (engine, false)
  | some trigger =>
    ({ triggers := engine.triggers.erase triggerId
       agentTriggers :=
         match engine.agentTriggers.lookup trigger.agentId with
         | none => engine.agentTriggers
         | some ids =>
           engine.agentTriggers.insert trigger.agentId (ids.filter fun id => id ≠ triggerId) },
      true)

def removeAgentTriggers (engine : TriggerEngine) (agentId : AgentId) : TriggerEngine :=
  match engine.agentTriggers.lookup agentId with
  | none => engine
  | some triggerIds =>
    { triggers := triggerIds.foldl (fun t id => t.erase id) engine.triggers
      agentTriggers := engine.agentTriggers.erase agentId }

def setEnabled (engine : TriggerEngine) (triggerId : TriggerId) (enabled : Bool) :
    TriggerEngine × Bool :=
  match engine.triggers.lookup triggerId with
  | none => (engine, false)
  | some t =>
    ({ engine with triggers := engine.triggers.insert triggerId { t with enabled := enabled } },
      true)

/-- Evaluate an event against all triggers. -/
def evaluate (p : Printing) (checks : Bool) (order : IterOrder (TriggerId × Trigger))
    (engine : TriggerEngine) (event : EventPayload) :
    TriggerEngine × Except Abort (List Sent) :=
  match describeEvent p event with
  | none => (engine, .error .sliceInsideCharacter)
  | some description =>
    let (triggers, result) := evaluateLoop p checks event description
      (order.arrange engine.triggers.pairs) engine.triggers []
    ({ engine with triggers := triggers }, result)

end TriggerEngine

/-! ## Runs of the engine -/

inductive Op where
  | register (id : TriggerId) (agentId : AgentId) (pattern : TriggerPattern)
      (promptTemplate : String) (maxFires : UInt64) (now : ℕ)
  | remove (id : TriggerId)
  | removeAgentTriggers (agentId : AgentId)
  | setEnabled (id : TriggerId) (enabled : Bool)
  | evaluate (order : IterOrder (TriggerId × Trigger)) (event : EventPayload)

structure Session where
  engine : TriggerEngine
  registered : List (TriggerId × UInt64)
  sent : List Sent

def Session.new : Session := ⟨TriggerEngine.new, [], []⟩

/-- The messages that a call of `evaluate` returns. -/
def returned : Except Abort (List Sent) → List Sent
  | .ok sent => sent
  | .error _ => []

/-- One call. An id is drawn only once. -/
def step (p : Printing) (checks : Bool) (s : Session) : Op → Option Session
  | .register id agentId pattern promptTemplate maxFires now =>
    if id ∈ s.registered.map Prod.fst then none
    else some
      { s with
        engine := s.engine.register id agentId pattern promptTemplate maxFires now
        registered := s.registered ++ [(id, maxFires)] }
  | .remove id => some { s with engine := (s.engine.remove id).1 }
  | .removeAgentTriggers agentId => some { s with engine := s.engine.removeAgentTriggers agentId }
  | .setEnabled id enabled => some { s with engine := (s.engine.setEnabled id enabled).1 }
  | .evaluate order event =>
    let (engine, result) := s.engine.evaluate p checks order event
    some { s with engine := engine, sent := s.sent ++ returned result }

def sentBy (sent : List Sent) (id : TriggerId) : ℕ := sent.countP fun m => m.1 = id

theorem sentBy_append (sent sent' : List Sent) (id : TriggerId) :
    sentBy (sent ++ sent') id = sentBy sent id + sentBy sent' id :=
  countP_append

/-- The index is right, and the triggers keep their limits. -/
structure Sound (triggers : Table TriggerId Trigger) (index : Table AgentId (List TriggerId))
    (registered : List (TriggerId × UInt64)) (sent : List Sent) : Prop where
  indexed : Indexed Trigger.agentId triggers index
  distinct : (registered.map Prod.fst).Nodup
  stored : ∀ id t, triggers.lookup id = some t → (id, t.maxFires) ∈ registered
  known : ∀ m ∈ sent, m.1 ∈ registered.map Prod.fst
  /-- what a stored trigger has sent is counted, and the count is within the limit -/
  counted : ∀ id t, triggers.lookup id = some t → 0 < t.maxFires →
    sentBy sent id ≤ t.fireCount.toNat ∧ t.fireCount ≤ t.maxFires
  bounded : ∀ id n, (id, n) ∈ registered → 0 < n → sentBy sent id ≤ n.toNat

namespace Sound

variable {triggers : Table TriggerId Trigger} {index : Table AgentId (List TriggerId)}
  {registered : List (TriggerId × UInt64)} {sent : List Sent}

theorem forget (h : Sound triggers index registered (sent ++ sent')) :
    Sound triggers index registered sent where
  indexed := h.indexed
  distinct := h.distinct
  stored := h.stored
  known m hm := h.known m (mem_append_left sent' hm)
  counted id t ht hmax := by
    obtain ⟨hle, hcount⟩ := h.counted id t ht hmax
    rw [sentBy_append] at hle
    exact ⟨by omega, hcount⟩
  bounded id n hn hpos := by
    have hle := h.bounded id n hn hpos
    rw [sentBy_append] at hle
    omega

theorem restrict (h : Sound triggers index registered sent)
    (hindex : Indexed Trigger.agentId triggers' index')
    (hsub : ∀ id t, triggers'.lookup id = some t → triggers.lookup id = some t) :
    Sound triggers' index' registered sent where
  indexed := hindex
  distinct := h.distinct
  stored id t ht := h.stored id t (hsub id t ht)
  known := h.known
  counted id t ht := h.counted id t (hsub id t ht)
  bounded := h.bounded

/-- What a trigger may become in its turn, in which it sends `k` messages. -/
structure Turned (t t' : Trigger) (k : ℕ) : Prop where
  agent : t'.agentId = t.agentId
  limit : t'.maxFires = t.maxFires
  count : 0 < t.maxFires → t.fireCount ≤ t.maxFires →
    t.fireCount.toNat + k ≤ t'.fireCount.toNat ∧ t'.fireCount ≤ t.maxFires

theorem Turned.enabled (t : Trigger) (enabled : Bool) :
    Turned t { t with enabled := enabled } 0 :=
  ⟨rfl, rfl, fun _ hle => ⟨le_rfl, hle⟩⟩

theorem turned (h : Sound triggers index registered sent) {id : TriggerId} {t t' : Trigger}
    (ht : triggers.lookup id = some t) (new : List Sent) (hnew : ∀ m ∈ new, m.1 = id)
    (hturn : Turned t t' new.length) :
    Sound (triggers.insert id t') index registered (sent ++ new) := by
  have hreg := h.stored id t ht
  have hother : ∀ id', id' ≠ id → sentBy (sent ++ new) id' = sentBy sent id' := by
    intro id' hid
    rw [sentBy_append, Nat.add_eq_left]
    refine countP_eq_zero.mpr fun m hm => ?_
    simpa [hnew m hm] using Ne.symm hid
  have hself : sentBy (sent ++ new) id = sentBy sent id + new.length := by
    rw [sentBy_append, Nat.add_right_inj]
    exact countP_eq_length.mpr fun m hm => by simpa using hnew m hm
  have hcounted : 0 < t.maxFires →
      sentBy (sent ++ new) id ≤ t'.fireCount.toNat ∧ t'.fireCount ≤ t.maxFires := by
    intro hmax
    obtain ⟨hle, hcount⟩ := h.counted id t ht hmax
    obtain ⟨hle', hcount'⟩ := hturn.count hmax hcount
    rw [hself]
    exact ⟨by omega, hcount'⟩
  refine ⟨h.indexed.modify ht hturn.agent, h.distinct, ?_, ?_, ?_, ?_⟩
  · exact Table.forall_lookup_insert (hturn.limit ▸ hreg) h.stored
  · intro m hm
    rcases mem_append.mp hm with hm | hm
    · exact h.known m hm
    · rw [hnew m hm]
      exact mem_map_of_mem hreg
  · intro id' u hu hmax
    rw [Table.lookup_insert_eq] at hu
    split_ifs at hu with hid
    · cases hu
      rw [hturn.limit] at hmax ⊢
      exact hid ▸ hcounted hmax
    · rw [hother id' hid]
      exact h.counted id' u hu hmax
  · intro id' n hn hpos
    by_cases hid : id' = id
    · subst hid
      obtain rfl : t.maxFires = n :=
        congrArg Prod.snd (inj_on_of_nodup_map h.distinct hreg hn rfl)
      obtain ⟨hle, hcount⟩ := hcounted hpos
      exact hle.trans (UInt64.le_iff_toNat_le.mp hcount)
    · rw [hother id' hid]
      exact h.bounded id' n hn hpos

end Sound

/-- A trigger below its limit does not overflow. -/
theorem countFire_spec {checks : Bool} {fireCount fireCount' max : UInt64}
    (h : countFire checks fireCount = .ok fireCount') (hlt : fireCount < max) :
    fireCount.toNat + 1 ≤ fireCount'.toNat ∧ fireCount' ≤ max := by
  rw [countFire] at h
  split at h
  · cases h
  · cases h
    have hmax := max.toNat_lt
    rw [UInt64.lt_iff_toNat_lt] at hlt
    have hadd : (fireCount + 1).toNat = fireCount.toNat + 1 := by
      rw [UInt64.toNat_add, UInt64.toNat_one]
      exact Nat.mod_eq_of_lt (by omega)
    rw [UInt64.le_iff_toNat_le, hadd]
    exact ⟨le_rfl, hlt⟩

theorem turn_spec {p : Printing} {checks : Bool} {event : EventPayload} {description : String}
    {t t' : Trigger} {m : Option (AgentId × String)}
    (h : turn p checks event description t = .ok (t', m)) :
    Sound.Turned t t' m.toList.length := by
  rw [turn] at h
  split at h
  · cases h
    exact .enabled t t.enabled
  · split at h
    · cases h
      exact .enabled t false
    · rename_i hlimit
      split at h
      · obtain ⟨fireCount, hcount, h⟩ := Outcome.bind_eq_ok.mp h
        cases h
        refine ⟨rfl, rfl, fun hmax _ => countFire_spec hcount ?_⟩
        exact UInt64.not_le.mp fun hle => hlimit ⟨hmax, hle⟩
      · cases h
        exact .enabled t t.enabled

namespace Sound

variable {registered : List (TriggerId × UInt64)} {sent : List Sent}

variable {p : Printing} {checks : Bool}

/-- **The loop over the triggers**, by induction on those still to take their turn. -/
theorem evaluateLoop {event : EventPayload} {description : String}
    (rest : List (TriggerId × Trigger)) :
    ∀ {triggers : Table TriggerId Trigger} {new : List Sent}, (rest.map Prod.fst).Nodup →
      (∀ e ∈ rest, triggers.lookup e.1 = some e.2) →
      Sound triggers index registered (sent ++ new) →
      Sound (evaluateLoop p checks event description rest triggers new).1 index registered
        (sent ++ returned (evaluateLoop p checks event description rest triggers new).2) := by
  induction rest with
  | nil => intro triggers new _ _ h; exact h
  | cons e rest ih =>
    intro triggers new hnodup hstored h
    obtain ⟨id, t⟩ := e
    obtain ⟨hid, hnodup⟩ := nodup_cons.mp hnodup
    obtain ⟨ht, hstored⟩ := forall_mem_cons.mp hstored
    have hlater : ∀ t' : Trigger, ∀ e ∈ rest, (triggers.insert id t').lookup e.1 = some e.2 := by
      intro t' e he
      rw [AList.lookup_insert_ne]
      · exact hstored e he
      · intro heq
        have hmem := mem_map_of_mem (f := Prod.fst) he
        rw [heq] at hmem
        exact hid hmem
    rw [Triggers.evaluateLoop]
    split
    · -- the messages so far are lost
      rw [returned, append_nil]
      exact h.forget
    · rename_i t' hturn
      have hnext := h.turned ht [] nofun (turn_spec hturn)
      rw [append_nil] at hnext
      exact ih hnodup (hlater t') hnext
    · rename_i t' m hturn
      have hnext := h.turned ht [(id, m)] (by simp) (turn_spec hturn)
      rw [append_assoc] at hnext
      exact ih hnodup (hlater t') hnext

variable {engine : TriggerEngine}

section

variable (h : Sound engine.triggers engine.agentTriggers registered sent)
include h

theorem evaluate {event : EventPayload} {order : IterOrder (TriggerId × Trigger)} :
    Sound (engine.evaluate p checks order event).1.triggers
      (engine.evaluate p checks order event).1.agentTriggers registered
      (sent ++ returned (engine.evaluate p checks order event).2) := by
  rw [TriggerEngine.evaluate]
  split
  · rw [returned, append_nil]
    exact h
  · have hperm := order.perm engine.triggers.pairs
    refine evaluateLoop _ ?_ ?_ (by rwa [append_nil])
    · exact (hperm.map _).nodup_iff.mpr engine.triggers.nodup_keys_pairs
    · exact fun e he => Table.mem_pairs.mp (hperm.mem_iff.mp he)

theorem register {id : TriggerId} (hnew : id ∉ registered.map Prod.fst) (agentId : AgentId)
    (pattern : TriggerPattern) (promptTemplate : String) (maxFires : UInt64) (now : ℕ) :
    Sound (engine.register id agentId pattern promptTemplate maxFires now).triggers
      (engine.register id agentId pattern promptTemplate maxFires now).agentTriggers
      (registered ++ [(id, maxFires)]) sent := by
  have hnone : engine.triggers.lookup id = none := by
    cases hid : engine.triggers.lookup id with
    | none => rfl
    | some t => exact absurd (mem_map_of_mem (h.stored id t hid)) hnew
  have hunsent : sentBy sent id = 0 := by
    refine countP_eq_zero.mpr fun m hm hid => hnew ?_
    rw [← of_decide_eq_true hid]
    exact h.known m hm
  refine ⟨h.indexed.insert hnone _, ?_, ?_, ?_, ?_, ?_⟩
  · rw [map_append, map_singleton]
    refine nodup_append.mpr ⟨h.distinct, nodup_singleton id, ?_⟩
    rintro a ha b hb rfl
    obtain rfl := mem_singleton.mp hb
    exact hnew ha
  · exact Table.forall_lookup_insert (mem_append_right _ (mem_singleton_self _))
      fun id' t ht => mem_append_left _ (h.stored id' t ht)
  · intro m hm
    rw [map_append]
    exact mem_append_left _ (h.known m hm)
  · refine Table.forall_lookup_insert (fun _ => ?_) h.counted
    rw [hunsent]
    exact ⟨Nat.zero_le _, UInt64.le_iff_toNat_le.mpr (Nat.zero_le _)⟩
  · intro id' n hn hpos
    rcases mem_append.mp hn with hn | hn
    · exact h.bounded id' n hn hpos
    · cases mem_singleton.mp hn
      rw [hunsent]
      exact Nat.zero_le _

theorem remove (id : TriggerId) :
    Sound (engine.remove id).1.triggers (engine.remove id).1.agentTriggers registered sent := by
  rw [TriggerEngine.remove]
  split
  · exact h
  · rename_i t ht
    have hindex := h.indexed.erase ht
    have hmem := (h.indexed.mem_iff t.agentId id).mpr ⟨t, ht, rfl⟩
    refine h.restrict ?_ fun _ _ => Table.lookup_of_lookup_erase
    split
    · rename_i hnone
      rw [Table.keysOf, hnone] at hmem
      cases hmem
    · rename_i ids hids
      rw [Table.keysOf, hids] at hindex
      exact hindex

theorem removeAgentTriggers (agentId : AgentId) :
    Sound (engine.removeAgentTriggers agentId).triggers
      (engine.removeAgentTriggers agentId).agentTriggers registered sent := by
  rw [TriggerEngine.removeAgentTriggers]
  split
  · exact h
  · rename_i ids hids
    have hindex := h.indexed.eraseOwner agentId
    rw [Table.keysOf, hids] at hindex
    refine h.restrict hindex fun id t ht => ?_
    rw [Table.lookup_foldl_erase] at ht
    split_ifs at ht
    exact ht

theorem setEnabled (id : TriggerId) (enabled : Bool) :
    Sound (engine.setEnabled id enabled).1.triggers (engine.setEnabled id enabled).1.agentTriggers
      registered sent := by
  rw [TriggerEngine.setEnabled]
  split
  · exact h
  · rename_i t ht
    have hnext := h.turned ht [] nofun (.enabled t enabled)
    rwa [append_nil] at hnext

end

/-- **Every call keeps the index and the limits.** -/
theorem step {s s' : Session} {op : Op}
    (h : Sound s.engine.triggers s.engine.agentTriggers s.registered s.sent)
    (hstep : step p checks s op = some s') :
    Sound s'.engine.triggers s'.engine.agentTriggers s'.registered s'.sent := by
  cases op with
  | register id agentId pattern promptTemplate maxFires now =>
    rw [Triggers.step] at hstep
    split at hstep
    · cases hstep
    · rename_i hnew
      cases hstep
      exact h.register hnew agentId pattern promptTemplate maxFires now
  | remove id =>
    cases hstep
    exact h.remove id
  | removeAgentTriggers agentId =>
    cases hstep
    exact h.removeAgentTriggers agentId
  | setEnabled id enabled =>
    cases hstep
    exact h.setEnabled id enabled
  | evaluate order event =>
    cases hstep
    exact h.evaluate

theorem new : Sound TriggerEngine.new.triggers TriggerEngine.new.agentTriggers [] [] where
  indexed := .empty
  distinct := nodup_nil
  stored := nofun
  known := nofun
  counted := nofun
  bounded := nofun

end Sound

/-- **After any run** the index is exact, and no trigger has fired beyond its limit. -/
theorem run_sound (p : Printing) (checks : Bool) (ops : List Op) (s : Session)
    (hrun : Transition.run (step p checks) Session.new ops = some s) :
    (∀ agentId, (s.engine.agentTriggers.keysOf agentId).Nodup ∧
        ∀ id, id ∈ s.engine.agentTriggers.keysOf agentId ↔
          ∃ t, s.engine.triggers.lookup id = some t ∧ t.agentId = agentId) ∧
      ∀ id n, (id, n) ∈ s.registered → 0 < n → sentBy s.sent id ≤ n.toNat := by
  have hsound : Sound s.engine.triggers s.engine.agentTriggers s.registered s.sent :=
    @Transition.run_invariant Session Op (step p checks)
      (fun s => Sound s.engine.triggers s.engine.agentTriggers s.registered s.sent)
      (fun _ _ _ h hstep => h.step hstep) ops _ _ Sound.new hrun
  exact ⟨fun agentId => ⟨hsound.indexed.nodup agentId, hsound.indexed.mem_iff agentId⟩,
    hsound.bounded⟩

/-! ## A trigger that is enabled again -/

def silent : Printing := ⟨fun _ => "", fun _ => "", fun _ => "", fun _ => "", id⟩

/-- A trigger that may fire once, an event, and again after it has been enabled. -/
def enabledAgain : List Op :=
  [.register ⟨1⟩ ⟨"agent1"⟩ .all "Event: \x7b\x7bevent\x7d\x7d" 1 0,
    .evaluate (.stored _) (.system .kernelStarted), .evaluate (.stored _) (.system .kernelStarted),
    .setEnabled ⟨1⟩ true, .evaluate (.stored _) (.system .kernelStarted)]

theorem enabledAgain_sent :
    ∃ s, Transition.run (step silent true) Session.new enabledAgain = some s ∧
      s.registered = [(⟨1⟩, 1)] ∧ sentBy s.sent ⟨1⟩ ≤ 1 := by
  refine ⟨_, rfl, rfl, ?_⟩
  exact (run_sound silent true enabledAgain _ rfl).2 ⟨1⟩ 1 (mem_singleton_self _) (by decide)

end Triggers

end AlloyAgent
