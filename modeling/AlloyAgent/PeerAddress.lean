import Mathlib.Logic.Function.Basic
import AlloyAgent.Transition
import AlloyAgent.Wire

/-!
# Where peers are reached

A node registers a peer on either side of a handshake: in `connect_to_peer` with the address that it
has dialled, in `handle_inbound` with the address from which the connection comes.

* `stepNet`: nodes connect; `Reachable`: they can call back;
* `reachable_throughout_iff`: the runs in which that stays so.
-/

namespace AlloyAgent.PeerAddress

open Wire Transition

/-- Nodes, each of which listens on one address. -/
structure Nodes (ι : Type) where
  config : ι → PeerConfig
  nodeId_injective : Function.Injective fun x => (config x).nodeId

/-- A connection, and what the two nodes put into their messages; the listener sees `addr`. -/
structure Connection (ι : Type) where
  dialler : ι
  listener : ι
  id : String
  agents : List RemoteAgentInfo
  nonce : String
  ackAgents : List RemoteAgentInfo
  ackNonce : String
  addr : SocketAddr

/-- The registries, and the connections whose handshakes have been answered. -/
structure Net (ι : Type) where
  peers : ι → PeerRegistry
  answered : List (Connection ι)

def new (ι : Type) : Net ι := ⟨fun _ => ∅, []⟩

inductive Event (ι : Type) where
  /-- the listener reads the handshake -/
  | accept (c : Connection ι)
  /-- the dialler, in `connect_to_peer`, reads the answer -/
  | acknowledge (i : ℕ)

variable {ι : Type} (sign : String → String) (nodes : Nodes ι)

/-- What the listener makes of the handshake. -/
def Connection.inbound (c : Connection ι) : WireMessage × Except WireError PeerEntry :=
  handleInbound sign (nodes.config c.listener) c.ackAgents c.ackNonce c.addr
    ⟨c.id, .request (.handshake ((nodes.config c.dialler).hello sign c.agents c.nonce))⟩

/-- The address to which `send_to_peer` opens its connection. -/
def sendAddr (peers : PeerRegistry) (nodeId : String) : Option SocketAddr :=
  (peers.lookup nodeId).map (·.address)

/-- Every node has the address of a peer that it knows. -/
def Reachable (s : Net ι) : Prop :=
  ∀ x y addr, sendAddr (s.peers x) (nodes.config y).nodeId = some addr →
    addr = (nodes.config y).listenAddr

/-- The condition: an inbound connection comes from the address on which its dialler listens. -/
def FromListener (_ : Net ι) : Event ι → Prop
  | .accept c => c.addr = (nodes.config c.dialler).listenAddr
  | .acknowledge _ => True

theorem inbound_eq (c : Connection ι) :
    c.inbound sign nodes =
      (⟨c.id, .response (.handshakeAck
          ((nodes.config c.listener).hello sign c.ackAgents c.ackNonce))⟩,
        .ok (((nodes.config c.dialler).hello sign c.agents c.nonce).entry c.addr)) :=
  handleInbound_eq_ok.mpr ⟨_, rfl, rfl, verified_hello _ _ _ _, rfl, rfl⟩

variable [DecidableEq ι]

def Net.register (s : Net ι) (x : ι) (result : Except WireError PeerEntry) : Net ι :=
  match result with
  | .ok entry => { s with peers := Function.update s.peers x (addPeer (s.peers x) entry) }
  | .error _ => s

def stepNet (s : Net ι) : Event ι → Option (Net ι)
  | .accept c =>
    some ({ s with answered := s.answered ++ [c] }.register c.listener (c.inbound sign nodes).2)
  | .acknowledge i => do
    let c ← s.answered[i]?
    return s.register c.dialler
      (handleAck sign (nodes.config c.listener).listenAddr (c.inbound sign nodes).1)

variable {sign nodes} {s : Net ι}

theorem reachable_register (h : Reachable nodes s) (x y : ι) (agents : List RemoteAgentInfo)
    (nonce : String) (addr : SocketAddr) :
    Reachable nodes (s.register x (.ok (((nodes.config y).hello sign agents nonce).entry addr))) ↔
      addr = (nodes.config y).listenAddr := by
  constructor
  · intro hreg
    refine hreg x y addr ?_
    simp [Net.register, sendAddr, addPeer, Hello.entry, PeerConfig.hello]
  · rintro rfl z w addr haddr
    by_cases hz : z = x
    · subst hz
      by_cases hw : w = y
      · subst hw
        simpa [Net.register, sendAddr, addPeer, Hello.entry, PeerConfig.hello, eq_comm] using haddr
      · have hid : (nodes.config w).nodeId ≠ (nodes.config y).nodeId :=
          fun heq => hw (nodes.nodeId_injective heq)
        refine h z w addr ?_
        simpa [Net.register, sendAddr, addPeer, Hello.entry, PeerConfig.hello,
          AList.lookup_insert_ne hid] using haddr
    · refine h z w addr ?_
      simpa [Net.register, Function.update_of_ne hz] using haddr

theorem reachable_step (s : Net ι) (e : Event ι) (s' : Net ι) (h : Reachable nodes s)
    (hstep : stepNet sign nodes s e = some s') : Reachable nodes s' ↔ FromListener nodes s e := by
  cases e with
  | accept c =>
    cases hstep
    rw [inbound_eq]
    exact reachable_register h ..
  | acknowledge i =>
    obtain ⟨c, -, hs'⟩ := Option.bind_eq_some_iff.mp hstep
    cases hs'
    rw [inbound_eq, handleAck_hello]
    exact iff_of_true ((reachable_register h ..).mpr rfl) trivial

/-- **When peers stay reachable**: connections come from where their dialler listens. -/
theorem reachable_throughout_iff (sign : String → String) (nodes : Nodes ι) (es : List (Event ι))
    (s : Net ι) (hrun : run (stepNet sign nodes) (new ι) es = some s) :
    Throughout (stepNet sign nodes) (Reachable nodes) (new ι) es ↔
      Guarded (stepNet sign nodes) (FromListener nodes) (new ι) es :=
  throughout_iff_guarded reachable_step es (fun _ _ _ h => nomatch h) hrun

def twoNodes : Nodes Bool where
  config
    | true => ⟨"10.0.0.1:4200", "node-a", "first"⟩
    | false => ⟨"10.0.0.2:4200", "node-b", "second"⟩
  nodeId_injective x y h := by
    cases x <;> cases y <;> first | rfl | exact absurd h (by decide)

def connecting : List (Event Bool) :=
  [.accept ⟨true, false, "m", [], "n1", [], "n2", "10.0.0.1:50001"⟩, .acknowledge 0]

theorem wrong_address :
    ((run (stepNet id twoNodes) (new Bool) connecting).map fun s =>
      (sendAddr (s.peers true) "node-b", sendAddr (s.peers false) "node-a")) =
      some (some "10.0.0.2:4200", some "10.0.0.1:50001") := by
  decide

theorem connecting_breaks :
    ¬ Throughout (stepNet id twoNodes) (Reachable twoNodes) (new Bool) connecting := by
  obtain ⟨s, hrun⟩ : ∃ s, run (stepNet id twoNodes) (new Bool) connecting = some s := ⟨_, rfl⟩
  rw [reachable_throughout_iff id twoNodes connecting s hrun]
  exact fun h => absurd (show "10.0.0.1:50001" = "10.0.0.1:4200" from h.1) (by decide)

end AlloyAgent.PeerAddress
