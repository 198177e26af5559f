import AlloyAgent.HashTable

/-!
# The wire protocol between nodes

The messages of the protocol, the registry in which a node records its peers, and the decisions that
a node takes on a message (`handleInbound`, `handleAck`, `dispatch`).

* `handleInbound_eq_ok`, `handleAck_hello`: when a handshake is accepted;
* `PeerHandshake`, `PeerState`, `PeerAddress` and `WireBroadcast` build on this.
-/

namespace AlloyAgent.Wire

abbrev SocketAddr := String

structure RemoteAgentInfo where
  id : String
  name : String
  description : String
  tags : List String
  tools : List String
  state : String
  deriving DecidableEq

/-- The fields of a handshake and of its acknowledgement. -/
structure Hello where
  nodeId : String
  nodeName : String
  protocolVersion : ℕ
  agents : List RemoteAgentInfo
  nonce : String
  authHmac : String
  deriving DecidableEq

inductive WireRequest where
  | handshake (hello : Hello)
  | discover (query : String)
  | agentMessage (agent message : String) (sender : Option String)
  | ping
  deriving DecidableEq

inductive WireResponse where
  | handshakeAck (hello : Hello)
  | discoverResult (agents : List RemoteAgentInfo)
  | agentResponse (text : String)
  | pong (uptimeSecs : ℕ)
  | error (code : ℤ) (message : String)
  deriving DecidableEq

/-- Notification messages (one-way, no response). -/
inductive WireNotification where
  | agentSpawned (agent : RemoteAgentInfo)
  | agentTerminated (agentId : String)
  | shuttingDown
  deriving DecidableEq

inductive WireMessageKind where
  | request (request : WireRequest)
  | response (response : WireResponse)
  | notification (notification : WireNotification)
  deriving DecidableEq

structure WireMessage where
  id : String
  kind : WireMessageKind
  deriving DecidableEq

def protocolVersion : ℕ := 1

inductive WireError where
  | handshakeFailed (reason : String)
  | versionMismatch (expected remote : ℕ)
  deriving DecidableEq

structure PeerConfig where
  listenAddr : SocketAddr
  nodeId : String
  nodeName : String
  deriving DecidableEq

inductive PeerState where
  | connected
  | disconnected
  deriving DecidableEq

/-- An entry representing a single known peer. -/
structure PeerEntry where
  nodeId : String
  nodeName : String
  address : SocketAddr
  agents : List RemoteAgentInfo
  state : PeerState
  protocolVersion : ℕ
  deriving DecidableEq

abbrev PeerRegistry := Table String PeerEntry

/-- Register or update a peer after a successful handshake. -/
def addPeer (peers : PeerRegistry) (entry : PeerEntry) : PeerRegistry :=
  peers.insert entry.nodeId entry

def withPeer (peers : PeerRegistry) (nodeId : String) (f : PeerEntry → PeerEntry) :
    PeerRegistry :=
  match peers.lookup nodeId with
  | none => peers
  | some entry => peers.insert nodeId (f entry)

theorem lookup_withPeer (peers : PeerRegistry) (nodeId : String) (f : PeerEntry → PeerEntry) :
    (withPeer peers nodeId f).lookup nodeId = (peers.lookup nodeId).map f := by
  rw [withPeer]
  split
  · rename_i h
    rw [h, Option.map_none]
  · rename_i h
    rw [h, AList.lookup_insert, Option.map_some]

/-- Mark a peer as disconnected, but keep its entry. -/
def markDisconnected (peers : PeerRegistry) (nodeId : String) : PeerRegistry :=
  withPeer peers nodeId fun entry => { entry with state := .disconnected }

/-- Replace the agent with the same id, or add it. -/
def upsertAgent (agents : List RemoteAgentInfo) (agent : RemoteAgentInfo) :
    List RemoteAgentInfo :=
  match agents.findIdx? fun a => a.id = agent.id with
  | some i => agents.set i agent
  | none => agents ++ [agent]

def addAgent (peers : PeerRegistry) (nodeId : String) (agent : RemoteAgentInfo) :
    PeerRegistry :=
  withPeer peers nodeId fun entry => { entry with agents := upsertAgent entry.agents agent }

def removeAgent (peers : PeerRegistry) (nodeId agentId : String) : PeerRegistry :=
  withPeer peers nodeId fun entry =>
    { entry with agents := entry.agents.filter fun a => a.id ≠ agentId }

variable (sign : String → String)

/-- `hmac_verify`, for the signature of a handshake or of an acknowledgement. -/
def verified (hello : Hello) : Bool := sign (hello.nonce ++ hello.nodeId) = hello.authHmac

def PeerConfig.hello (config : PeerConfig) (agents : List RemoteAgentInfo) (nonce : String) :
    Hello where
  nodeId := config.nodeId
  nodeName := config.nodeName
  protocolVersion := protocolVersion
  agents := agents
  nonce := nonce
  authHmac := sign (nonce ++ config.nodeId)

def Hello.entry (hello : Hello) (address : SocketAddr) : PeerEntry where
  nodeId := hello.nodeId
  nodeName := hello.nodeName
  address := address
  agents := hello.agents
  state := .connected
  protocolVersion := hello.protocolVersion

/-- The first message of an inbound connection: the answer, and the peer or the error. -/
def handleInbound (config : PeerConfig) (agents : List RemoteAgentInfo) (ackNonce : String)
    (addr : SocketAddr) (msg : WireMessage) : WireMessage × Except WireError PeerEntry :=
  let reply (response : WireResponse) : WireMessage := ⟨msg.id, .response response⟩
  match msg.kind with
  | .request (.handshake hello) =>
    if hello.protocolVersion ≠ protocolVersion then
      let expected := protocolVersion
      let got := hello.protocolVersion
      (reply (.error 1 s!"Protocol version mismatch: expected {expected}, got {got}"),
        .error (.versionMismatch protocolVersion hello.protocolVersion))
    else if !verified sign hello then
      (reply (.error 403 "HMAC authentication failed"),
        .error (.handshakeFailed "HMAC verification failed on incoming Handshake"))
    else (reply (.handshakeAck (config.hello sign agents ackNonce)), .ok (hello.entry addr))
  | _ =>
    (reply (.error 401 "Authentication required: complete HMAC handshake first"),
      .error (.handshakeFailed "Rejected unauthenticated request — handshake required"))

/-- The answer to the node's own handshake: the peer, or an error. -/
def handleAck (addr : SocketAddr) (msg : WireMessage) : Except WireError PeerEntry :=
  match msg.kind with
  | .response (.handshakeAck hello) =>
    if hello.protocolVersion ≠ protocolVersion then
      .error (.versionMismatch protocolVersion hello.protocolVersion)
    else if !verified sign hello then
      .error (.handshakeFailed "HMAC verification failed on HandshakeAck")
    else .ok (hello.entry addr)
  | .response (.error code message) =>
    .error (.handshakeFailed s!"Remote error {code}: {message}")
  | _ => .error (.handshakeFailed "Unexpected response to handshake")

/-- What is accepted: a handshake of this version with a right code, for any node. -/
theorem handleInbound_eq_ok {sign : String → String} :
    handleInbound sign config agents ackNonce addr msg = (reply, .ok entry) ↔
      ∃ hello, msg.kind = .request (.handshake hello) ∧
        hello.protocolVersion = protocolVersion ∧ verified sign hello = true ∧
        reply = ⟨msg.id, .response (.handshakeAck (config.hello sign agents ackNonce))⟩ ∧
        entry = hello.entry addr := by
  rw [handleInbound]
  split
  · rename_i hello hkind
    rw [hkind]
    split
    · rename_i hversion
      refine iff_of_false (by simp) ?_
      rintro ⟨_, h, hv, -⟩
      cases h
      exact hversion hv
    · rename_i hversion
      split
      · rename_i hver
        refine iff_of_false (by simp) ?_
        rintro ⟨_, h, -, hv, -⟩
        cases h
        simp [hv] at hver
      · rename_i hver
        refine ⟨fun h => ?_, ?_⟩
        · obtain ⟨rfl, hok⟩ := Prod.mk.inj h
          cases hok
          exact ⟨hello, rfl, not_not.mp hversion, by simpa using hver, rfl, rfl⟩
        · rintro ⟨_, h, -, -, rfl, rfl⟩
          cases h
          rfl
  · rename_i hkind
    refine iff_of_false (by simp) ?_
    rintro ⟨hello, h, -⟩
    exact hkind hello h

theorem verified_hello (config : PeerConfig) (agents : List RemoteAgentInfo) (nonce : String) :
    verified sign (config.hello sign agents nonce) = true :=
  decide_eq_true rfl

theorem handleAck_hello (config : PeerConfig) (agents : List RemoteAgentInfo) (nonce id : String)
    (addr : SocketAddr) :
    handleAck sign addr ⟨id, .response (.handshakeAck (config.hello sign agents nonce))⟩ =
      .ok ((config.hello sign agents nonce).entry addr) := by
  simp only [handleAck, verified_hello]
  rfl

/-! ## Established connections -/

def handleNotification (peers : PeerRegistry) (peerNodeId : String) :
    WireNotification → PeerRegistry
  | .agentSpawned agent => addAgent peers peerNodeId agent
  | .agentTerminated agentId => removeAgent peers peerNodeId agentId
  | .shuttingDown => markDisconnected peers peerNodeId

/-- The kernel's ability to respond to remote requests. -/
structure PeerHandle where
  localAgents : List RemoteAgentInfo
  handleAgentMessage : String → String → Option String → Except String String
  discoverAgents : String → List RemoteAgentInfo
  uptimeSecs : ℕ

def handleRequestInLoop (handle : PeerHandle) : WireRequest → WireResponse
  | .ping => .pong handle.uptimeSecs
  | .discover query => .discoverResult (handle.discoverAgents query)
  | .agentMessage agent message sender =>
    match handle.handleAgentMessage agent message sender with
    | .ok text => .agentResponse text
    | .error e => .error 500 e
  | .handshake _ => .error 400 "Unexpected request in connection loop"

/-- One message in the connection loop: the registry after it, and what is answered. -/
def dispatch (handle : PeerHandle) (peers : PeerRegistry) (peerNodeId : String)
    (msg : WireMessage) : PeerRegistry × Option WireMessage :=
  match msg.kind with
  | .notification notif => (handleNotification peers peerNodeId notif, none)
  | .request request => (peers, some ⟨msg.id, .response (handleRequestInLoop handle request)⟩)
  | .response _ => (peers, none)

end AlloyAgent.Wire
