import Mathlib.Logic.Function.Basic
import AlloyAgent.Wire

/-!
# Notifications between nodes

A node serves an inbound connection in two phases: the first message has to be a handshake, and only
then the dispatch loop handles notifications, in the name of the node that the handshake has named.

* `Node.serve`: one connection; `Node.hearAll`: a list of broadcasts;
* `broadcasts_reach_iff`: the broadcasts that are handled.
-/

namespace AlloyAgent.Wire

/-- A running node, and the notifications it has handled, each with its sender. -/
structure Node where
  config : PeerConfig
  handle : PeerHandle
  peers : PeerRegistry
  handled : List (String × WireNotification)

def notifications (msgs : List WireMessage) : List WireNotification :=
  msgs.filterMap fun msg =>
    match msg.kind with
    | .notification notif => some notif
    | _ => none

/-- One round of the connection loop: the node after it, and what is answered. -/
def Node.receive (node : Node) (peerNodeId : String) (msg : WireMessage) :
    Node × Option WireMessage :=
  let result := dispatch node.handle node.peers peerNodeId msg
  ({ node with
      peers := result.1
      handled := node.handled ++ (notifications [msg]).map fun notif => (peerNodeId, notif) },
    result.2)

/-- Read/write message loop for an established connection. -/
def Node.connectionLoop (peerNodeId : String) : Node → List WireMessage → Node × List WireMessage
  | node, [] => (node, [])
  | node, msg :: msgs =>
    let round := node.receive peerNodeId msg
    let rest := round.1.connectionLoop peerNodeId msgs
    (rest.1, round.2.toList ++ rest.2)

variable (sign : String → String)

/-- `handle_inbound`, until the end of the stream. -/
def Node.serve (node : Node) (ackNonce : String) (addr : SocketAddr) :
    List WireMessage → Node × List WireMessage
  | [] => (node, [])
  | msg :: msgs =>
    match handleInbound sign node.config node.handle.localAgents ackNonce addr msg with
    | (reply, .error _) => (node, [reply])
    | (reply, .ok entry) =>
      let registered := { node with peers := addPeer node.peers entry }
      let looped := registered.connectionLoop entry.nodeId msgs
      ({ looped.1 with peers := markDisconnected looped.1.peers entry.nodeId }, reply :: looped.2)

def connectedPeers (order : IterOrder (String × PeerEntry)) (peers : PeerRegistry) :
    List PeerEntry :=
  ((order.arrange peers.pairs).map Prod.snd).filter fun peer => peer.state = .connected

/-- Broadcast a notification to all connected peers. -/
def broadcastNotification (order : IterOrder (String × PeerEntry)) (newId : PeerEntry → String)
    (peers : PeerRegistry) (notification : WireNotification) : List (SocketAddr × WireMessage) :=
  (connectedPeers order peers).map fun peer =>
    (peer.address, ⟨newId peer, .notification notification⟩)

/-! ## What a connection does -/

section

variable {sign} {node : Node}

theorem serve_notification (id : String) (notif : WireNotification) (msgs : List WireMessage) :
    (node.serve sign ackNonce addr (⟨id, .notification notif⟩ :: msgs)).1 = node := rfl

end

/-! ## Agents that run on the other node -/

/-- The agents that run on a node, by their ids. -/
abbrev Running := String → Option RemoteAgentInfo

/-- What a notification says about the agents that run. -/
def Running.after (running : Running) : WireNotification → Running
  | .agentSpawned agent => Function.update running agent.id (some agent)
  | .agentTerminated agentId => Function.update running agentId none
  | .shuttingDown => running

/-- A list of agents names each of those that run, and each once. -/
structure Lists (agents : List RemoteAgentInfo) (running : Running) : Prop where
  nodup : (agents.map RemoteAgentInfo.id).Nodup
  mem_iff : ∀ agent, agent ∈ agents ↔ running agent.id = some agent

/-- A registry lists the agents that run on a peer. -/
def InStep (peers : PeerRegistry) (nodeId : String) (running : Running) : Prop :=
  ∃ entry, peers.lookup nodeId = some entry ∧ Lists entry.agents running

/-- The order of the registry, fresh ids and nonces, and the addresses of inbound connections. -/
structure Environment where
  order : IterOrder (String × PeerEntry)
  newId : ℕ → PeerEntry → String
  ackNonce : WireMessage → String
  clientAddr : WireMessage → SocketAddr

/-- A node serves those of the connections that are made to its address. -/
def Node.hear (node : Node) (env : Environment) (conns : List (SocketAddr × WireMessage)) : Node :=
  conns.foldl (fun node conn =>
    if conn.1 = node.config.listenAddr then
      (node.serve sign (env.ackNonce conn.2) (env.clientAddr conn.2) [conn.2]).1
    else node) node

/-- The receiver after the sender has broadcast some notifications, one after another. -/
def Node.hearAll (receiver : Node) (env : Environment) (peers : PeerRegistry) :
    ℕ → List WireNotification → Node
  | _, [] => receiver
  | round, notif :: notifs =>
    (receiver.hear sign env (broadcastNotification env.order (env.newId round) peers notif)).hearAll
      env peers (round + 1) notifs

/-- The registry lists a node as connected, with the address on which it listens. -/
def Connected (peers : PeerRegistry) (node : Node) : Prop :=
  ∃ entry, peers.lookup node.config.nodeId = some entry ∧ entry.state = .connected ∧
    entry.address = node.config.listenAddr

/-- Each notification was handled for the sender, in order, and the agents stay in step. -/
structure Reached (nodeId : String) (notifs : List WireNotification) (before after : Node) :
    Prop where
  handled : after.handled = before.handled ++ notifs.map fun notif => (nodeId, notif)
  inStep : ∀ running, InStep before.peers nodeId running →
    InStep after.peers nodeId (notifs.foldl Running.after running)

theorem hear_broadcast (receiver : Node) (env : Environment) (round : ℕ) (peers : PeerRegistry)
    (notif : WireNotification) :
    receiver.hear sign env (broadcastNotification env.order (env.newId round) peers notif) =
      receiver := by
  rw [Node.hear, broadcastNotification]
  induction connectedPeers env.order peers with
  | nil => rfl
  | cons peer rest ih =>
    rw [List.map_cons, List.foldl_cons, serve_notification, ite_self]
    exact ih

theorem hearAll_eq (receiver : Node) (env : Environment) (peers : PeerRegistry)
    (notifs : List WireNotification) (round : ℕ) :
    receiver.hearAll sign env peers round notifs = receiver := by
  induction notifs generalizing round with
  | nil => rfl
  | cons notif notifs ih => rw [Node.hearAll, hear_broadcast, ih]

/-- **Broadcasts do not reach anyone**: a peer is reached exactly if nothing is broadcast. -/
theorem broadcasts_reach_iff (env : Environment) (sender receiver : Node)
    (notifs : List WireNotification) :
    (Connected sender.peers receiver →
      Reached sender.config.nodeId notifs receiver
        (receiver.hearAll sign env sender.peers 0 notifs)) ↔
      (Connected sender.peers receiver → notifs = []) := by
  refine imp_congr_right fun _ => ?_
  rw [hearAll_eq]
  refine ⟨fun h => ?_, ?_⟩
  · have hhandled := h.handled
    rwa [List.self_eq_append_right, List.map_eq_nil_iff] at hhandled
  · rintro rfl
    exact ⟨(List.append_nil _).symm, fun _ h => h⟩

/-! ## A spawned agent that is not heard of -/

def quietNode (nodeId peerId addr peerAddr : String) : Node where
  config := ⟨addr, nodeId, nodeId⟩
  handle := ⟨[], fun _ _ _ => .error "no agent", fun _ => [], 0⟩
  peers := AList.insert peerId ⟨peerId, peerId, peerAddr, [], .connected, 1⟩ ∅
  handled := []

def nodeA : Node := quietNode "node-a" "node-b" "10.0.0.1:4200" "10.0.0.2:4200"

def nodeB : Node := quietNode "node-b" "node-a" "10.0.0.2:4200" "10.0.0.1:4200"

def coder : RemoteAgentInfo := ⟨"agent-1", "coder", "writes code", [], [], "running"⟩

def plainEnvironment : Environment where
  order := .stored _
  newId := fun round peer => s!"{peer.nodeId}-{round}"
  ackNonce := fun msg => msg.id
  clientAddr := fun _ => "10.0.0.1:50000"

/-- The other node lists no agent after the broadcast, and has handled nothing. -/
theorem spawned_unheard :
    Connected nodeA.peers nodeB ∧
      (nodeB.hearAll (fun data => "mac " ++ data) plainEnvironment nodeA.peers 0
        [.agentSpawned coder]).handled = [] ∧
      ((nodeB.hearAll (fun data => "mac " ++ data) plainEnvironment nodeA.peers 0
        [.agentSpawned coder]).peers.lookup "node-a").map PeerEntry.agents = some [] := by
  refine ⟨⟨_, rfl, rfl, rfl⟩, rfl, rfl⟩

end AlloyAgent.Wire
