import Mathlib.Logic.Function.Basic
import AlloyAgent.Transition
import AlloyAgent.Wire

/-!
# Peer states and open connections

Two nodes keep connections with each other. A connection is dialled by one of them, with
`connect_to_peer` to stay open, or with `send_to_peer` for one message.

* `stepNet`: connections are opened, closed and announced to end;
* `mirror_throughout_iff`: the runs in which registries mirror connections.
-/

namespace AlloyAgent.PeerConnections

open Option Transition Wire

inductive Side where
  | left
  | right
  deriving DecidableEq

def Side.other : Side → Side
  | .left => .right
  | .right => .left

@[simp] theorem Side.other_other (x : Side) : x.other.other = x := by
  cases x <;> rfl

inductive Dial where
  | connectToPeer
  | sendToPeer
  deriving DecidableEq

/-- One end of a connection; `current` until the peer announces that it is shutting down. -/
inductive End where
  | pending
  | opened (current : Bool)
  | closed
  deriving DecidableEq

/-- A connection: who dialled it and how, its messages, the address seen, and its ends. -/
structure Connection where
  dialler : Side
  dial : Dial
  id : String
  agents : List RemoteAgentInfo
  nonce : String
  ackAgents : List RemoteAgentInfo
  ackNonce : String
  addr : SocketAddr
  answered : Bool
  ends : Side → End

structure Net where
  peers : Side → PeerRegistry
  conns : List Connection

def new : Net := ⟨fun _ => ∅, []⟩

inductive Event where
  | dial (c : Connection)
  | accept (i : ℕ)
  | acknowledge (i : ℕ)
  | receive (i : ℕ) (x : Side) (handle : PeerHandle) (msg : WireMessage)
  | close (i : ℕ) (x : Side)

section Steps

variable (sign : String → String) (config : Side → PeerConfig)

def Connection.request (c : Connection) : WireMessage :=
  ⟨c.id, .request (.handshake ((config c.dialler).hello sign c.agents c.nonce))⟩

def Connection.inbound (c : Connection) : WireMessage × Except WireError PeerEntry :=
  handleInbound sign (config c.dialler.other) c.ackAgents c.ackNonce c.addr (c.request sign config)

def Connection.loops (c : Connection) (x : Side) : Bool :=
  c.dial = .connectToPeer || x ≠ c.dialler

def Connection.setEnd (c : Connection) (x : Side) (e : End) : Connection :=
  { c with ends := Function.update c.ends x e }

def Connection.answer (c : Connection) : Connection := { c with answered := true }

/-- The other node has announced that it is shutting down. -/
def End.announced : End → End
  | .opened _ => .opened false
  | e => e

def isShuttingDown (msg : WireMessage) : Bool := msg.kind = .notification .shuttingDown

def Net.setPeers (s : Net) (x : Side) (peers : PeerRegistry) : Net :=
  { s with peers := Function.update s.peers x peers }

def Net.setConn (s : Net) (i : ℕ) (c : Connection) : Net := { s with conns := s.conns.set i c }

def stepNet (s : Net) : Event → Option Net
  | .dial c =>
    let listener := config c.dialler.other
    -- `send_to_peer` dials the address in the registry
    let reached : Bool :=
      match c.dial with
      | .connectToPeer => true
      | .sendToPeer =>
        ((s.peers c.dialler).lookup listener.nodeId).any (·.address = listener.listenAddr)
    let c := { c with answered := false, ends := fun _ => .pending }
    if reached then some { s with conns := s.conns ++ [c] } else none
  | .accept i => do
    let c ← s.conns[i]?
    let x := c.dialler.other
    if c.ends x = .pending then
      match (c.inbound sign config).2 with
      | .ok entry =>
        some ((s.setConn i (c.answer.setEnd x (.opened true))).setPeers x
          (addPeer (s.peers x) entry))
      | .error _ => some (s.setConn i (c.answer.setEnd x .closed))
    else none
  | .acknowledge i => do
    let c ← s.conns[i]?
    let x := c.dialler
    if c.ends x = .pending ∧ c.answered then
      match handleAck sign (config x.other).listenAddr (c.inbound sign config).1 with
      | .ok entry =>
        let s' := s.setConn i (c.setEnd x (.opened true))
        match c.dial with
        | .connectToPeer => some (s'.setPeers x (addPeer (s.peers x) entry))
        | .sendToPeer => some s'
      | .error _ => some (s.setConn i (c.setEnd x .closed))
    else none
  | .receive i x handle msg => do
    let c ← s.conns[i]?
    match c.ends x with
    | .opened _ =>
      if c.loops x then
        let peers := (dispatch handle (s.peers x) (config x.other).nodeId msg).1
        let conns :=
          if isShuttingDown msg then s.conns.map fun d => d.setEnd x (d.ends x).announced
          else s.conns
        some ({ s with conns := conns }.setPeers x peers)
      else none
    | _ => none
  | .close i x => do
    let c ← s.conns[i]?
    let s' := s.setConn i (c.setEnd x .closed)
    match c.ends x with
    | .opened _ =>
      if c.loops x then
        some (s'.setPeers x (markDisconnected (s.peers x) (config x.other).nodeId))
      else some s'
    | .pending => some s'
    | .closed => none

/-! ## The flag and the connections -/

def Marked (peers : PeerRegistry) (nodeId : String) : Prop :=
  ∃ entry, peers.lookup nodeId = some entry ∧ entry.state = .connected

instance (peers : PeerRegistry) (nodeId : String) : Decidable (Marked peers nodeId) :=
  decidable_of_iff (∃ entry ∈ peers.lookup nodeId, entry.state = .connected) Iff.rfl

/-- Open at this end, and the other node has not announced that it is shutting down. -/
def Connection.IsOpen (x : Side) (c : Connection) : Prop := c.ends x = .opened true

instance (x : Side) (c : Connection) : Decidable (c.IsOpen x) :=
  inferInstanceAs (Decidable (_ = _))

/-- Each node marks the other one as connected exactly if a connection with it is open. -/
def Mirror (s : Net) : Prop :=
  ∀ x, Marked (s.peers x) (config x.other).nodeId ↔ ∃ c ∈ s.conns, c.IsOpen x

/-- A connection other than this one is open at the node. -/
def AnotherOpen (s : Net) (i : ℕ) (x : Side) : Prop :=
  ∃ j, j ≠ i ∧ ∃ c, s.conns[j]? = some c ∧ c.IsOpen x

/-- `send_to_peer` ends only while another connection is open, others only when none is. -/
def Alone (s : Net) : Event → Prop
  | .acknowledge i => ∀ c ∈ s.conns[i]?, c.dial = .sendToPeer → AnotherOpen s i c.dialler
  | .close i x => ∀ c ∈ s.conns[i]?, ∀ current, c.ends x = .opened current →
      if c.loops x then ¬ AnotherOpen s i x else current = true → AnotherOpen s i x
  | _ => True

end Steps

variable {sign : String → String} {config : Side → PeerConfig} (peers : PeerRegistry)

theorem marked_addPeer (h : entry.state = .connected) : Marked (addPeer peers entry) entry.nodeId :=
  ⟨entry, AList.lookup_insert _, h⟩

theorem marked_withPeer (nodeId : String) {f : PeerEntry → PeerEntry}
    (h : ∀ entry, (f entry).state = entry.state) :
    Marked (withPeer peers nodeId f) nodeId ↔ Marked peers nodeId := by
  simp only [Marked, lookup_withPeer, map_eq_some_iff]
  refine ⟨?_, ?_⟩
  · rintro ⟨_, ⟨entry, hentry, rfl⟩, hstate⟩
    exact ⟨entry, hentry, h entry ▸ hstate⟩
  · rintro ⟨entry, hentry, hstate⟩
    exact ⟨f entry, ⟨entry, hentry, rfl⟩, (h entry).trans hstate⟩

theorem not_marked_markDisconnected (nodeId : String) :
    ¬ Marked (markDisconnected peers nodeId) nodeId := by
  rintro ⟨entry, hentry, hstate⟩
  rw [markDisconnected, lookup_withPeer, map_eq_some_iff] at hentry
  obtain ⟨_, -, rfl⟩ := hentry
  cases hstate

theorem marked_dispatch (handle : PeerHandle) (peers : PeerRegistry) (nodeId : String)
    (msg : WireMessage) :
    Marked (dispatch handle peers nodeId msg).1 nodeId ↔
      isShuttingDown msg = false ∧ Marked peers nodeId := by
  rw [dispatch, isShuttingDown]
  split
  · rename_i notif hkind
    cases notif with
    | agentSpawned agent =>
      rw [and_iff_right (by simp [hkind])]
      exact marked_withPeer peers nodeId fun _ => rfl
    | agentTerminated agentId =>
      rw [and_iff_right (by simp [hkind])]
      exact marked_withPeer peers nodeId fun _ => rfl
    | shuttingDown =>
      refine iff_of_false (not_marked_markDisconnected peers nodeId) fun h => ?_
      simp [hkind] at h
  · rename_i hkind
    simp [hkind]
  · rename_i hkind
    simp [hkind]

/-! ## Handshakes between the two nodes -/

theorem inbound_eq (c : Connection) :
    c.inbound sign config =
      (⟨c.id, .response (.handshakeAck
          ((config c.dialler.other).hello sign c.ackAgents c.ackNonce))⟩,
        .ok (((config c.dialler).hello sign c.agents c.nonce).entry c.addr)) :=
  handleInbound_eq_ok.mpr ⟨_, rfl, rfl, verified_hello _ _ _ _, rfl, rfl⟩

/-! ## One end changes -/

variable {c : Connection} {x : Side}

theorem isOpen_setEnd : (c.setEnd x e).IsOpen x ↔ e = .opened true := by
  simp only [Connection.IsOpen, Connection.setEnd, Function.update_self]

theorem isOpen_setEnd_ne (h : y ≠ x) : (c.setEnd x e).IsOpen y ↔ c.IsOpen y := by
  simp only [Connection.IsOpen, Connection.setEnd, Function.update_of_ne h]

theorem announced_ne (e : End) : e.announced ≠ .opened true := by
  cases e <;> simp [End.announced]

variable {s : Net} {i : ℕ}

theorem mirror_set (h : Mirror config s) (hc : s.conns[i]? = some c)
    (hsame : ∀ y, y ≠ x → (c'.IsOpen y ↔ c.IsOpen y)) (peers : PeerRegistry) :
    Mirror config ((s.setConn i c').setPeers x peers) ↔
      (Marked peers (config x.other).nodeId ↔ c'.IsOpen x ∨ AnotherOpen s i x) := by
  have hset (y : Side) : (∃ d ∈ s.conns.set i c', d.IsOpen y) ↔
      c'.IsOpen y ∨ AnotherOpen s i y := exists_mem_set hc c' _
  refine ⟨fun hmirror => ?_, fun hx y => ?_⟩
  · have hx := hmirror x
    simp only [Net.setPeers, Net.setConn, Function.update_self, hset] at hx
    exact hx
  · by_cases hyx : y = x
    · subst hyx
      simp only [Net.setPeers, Net.setConn, Function.update_self, hset]
      exact hx
    · simp only [Net.setPeers, Net.setConn, Function.update_of_ne hyx, hset, hsame y hyx]
      exact (h y).trans (exists_mem_iff hc _)

theorem mirror_setConn (h : Mirror config s) (hc : s.conns[i]? = some c)
    (hsame : ∀ y, y ≠ x → (c'.IsOpen y ↔ c.IsOpen y)) :
    Mirror config (s.setConn i c') ↔
      (c.IsOpen x ∨ AnotherOpen s i x ↔ c'.IsOpen x ∨ AnotherOpen s i x) := by
  have hpeers : (s.setConn i c').setPeers x (s.peers x) = s.setConn i c' := by
    simp only [Net.setPeers, Net.setConn, Function.update_eq_self]
  rw [← hpeers, mirror_set h hc hsame, (h x).trans (exists_mem_iff hc _)]
  rfl

/-! ## One lemma for each step -/

variable {s' : Net}

section

variable (h : Mirror config s)
include h

theorem mirror_dial (hstep : stepNet sign config s (.dial c) = some s') : Mirror config s' := by
  simp only [stepNet] at hstep
  split_ifs at hstep
  cases hstep
  intro x
  rw [h x]
  simp [Connection.IsOpen, or_and_right, exists_or]

theorem mirror_accept (hstep : stepNet sign config s (.accept i) = some s') : Mirror config s' := by
  obtain ⟨c, hc, hstep⟩ := bind_eq_some_iff.mp hstep
  dsimp only at hstep
  split_ifs at hstep with hpending
  rw [inbound_eq] at hstep
  cases hstep
  have hsame (y : Side) (hy : y ≠ c.dialler.other) :
      (c.answer.setEnd c.dialler.other (.opened true)).IsOpen y ↔ c.IsOpen y :=
    isOpen_setEnd_ne hy
  rw [mirror_set h hc hsame]
  refine iff_of_true ?_ (.inl (isOpen_setEnd.mpr rfl))
  rw [Side.other_other]
  exact marked_addPeer _ rfl

theorem mirror_acknowledge (hstep : stepNet sign config s (.acknowledge i) = some s') :
    Mirror config s' ↔ Alone s (.acknowledge i) := by
  obtain ⟨c, hc, hstep⟩ := bind_eq_some_iff.mp hstep
  dsimp only at hstep
  split_ifs at hstep with hpending
  rw [inbound_eq, handleAck_hello] at hstep
  have hsame (y : Side) (hy : y ≠ c.dialler) :
      (c.setEnd c.dialler (.opened true)).IsOpen y ↔ c.IsOpen y := isOpen_setEnd_ne hy
  have hopen : (c.setEnd c.dialler (.opened true)).IsOpen c.dialler := isOpen_setEnd.mpr rfl
  have halone : Alone s (.acknowledge i) ↔ (c.dial = .sendToPeer → AnotherOpen s i c.dialler) := by
    simp only [Alone, hc, mem_some_iff, forall_eq']
  rw [halone]
  cases hdial : c.dial with
  | connectToPeer =>
    simp only [hdial] at hstep
    cases hstep
    rw [mirror_set h hc hsame]
    exact iff_of_true (iff_of_true (marked_addPeer _ rfl) (.inl hopen)) nofun
  | sendToPeer =>
    -- the flag is as before, when this connection was not open
    simp only [hdial] at hstep
    cases hstep
    have hnot : ¬ c.IsOpen c.dialler := by
      rw [Connection.IsOpen, hpending.1]
      nofun
    rw [mirror_setConn h hc hsame, or_iff_right hnot]
    exact ⟨fun hiff _ => hiff.mpr (.inl hopen), fun himp => iff_of_true (himp rfl) (.inl hopen)⟩

theorem mirror_receive (hstep : stepNet sign config s (.receive i x handle msg) = some s') :
    Mirror config s' := by
  obtain ⟨c, hc, hstep⟩ := bind_eq_some_iff.mp hstep
  split at hstep
  · split_ifs at hstep with hloops hshut
    · cases hstep
      intro y
      simp only [Net.setPeers, List.mem_map, exists_exists_and_eq_and]
      by_cases hyx : y = x
      · subst hyx
        rw [Function.update_self, marked_dispatch, hshut]
        refine iff_of_false (fun hand => nomatch hand.1) ?_
        rintro ⟨d, -, hopen⟩
        exact announced_ne _ (isOpen_setEnd.mp hopen)
      · rw [Function.update_of_ne hyx, h y]
        exact exists_congr fun d => and_congr_right fun _ => (isOpen_setEnd_ne hyx).symm
    · cases hstep
      intro y
      by_cases hyx : y = x
      · subst hyx
        simp only [Net.setPeers, Function.update_self]
        rw [marked_dispatch, and_iff_right (by simpa using hshut)]
        exact h y
      · simp only [Net.setPeers, Function.update_of_ne hyx]
        exact h y
  · cases hstep

theorem mirror_close (hstep : stepNet sign config s (.close i x) = some s') :
    Mirror config s' ↔ Alone s (.close i x) := by
  obtain ⟨c, hc, hstep⟩ := bind_eq_some_iff.mp hstep
  have hsame (y : Side) (hy : y ≠ x) : (c.setEnd x .closed).IsOpen y ↔ c.IsOpen y :=
    isOpen_setEnd_ne hy
  have hnot : ¬ (c.setEnd x .closed).IsOpen x := fun hopen => nomatch isOpen_setEnd.mp hopen
  split at hstep
  · rename_i current hend
    have halone : Alone s (.close i x) ↔
        if c.loops x then ¬ AnotherOpen s i x else current = true → AnotherOpen s i x := by
      simp only [Alone, hc, mem_some_iff, forall_eq', hend, End.opened.injEq]
    rw [halone]
    split_ifs at hstep with hloops <;> cases hstep
    · rw [mirror_set h hc hsame, if_pos hloops, or_iff_right hnot]
      exact iff_false_left (not_marked_markDisconnected _ _)
    · have hopen : c.IsOpen x ↔ current = true := by
        rw [Connection.IsOpen, hend, End.opened.injEq]
      rw [mirror_setConn h hc hsame, if_neg hloops, or_iff_right hnot, hopen]
      exact ⟨fun hiff hcur => hiff.mp (.inl hcur), fun himp => ⟨fun hor => hor.elim himp id, .inr⟩⟩
  · rename_i hend
    cases hstep
    have hclosed : ¬ c.IsOpen x := by
      rw [Connection.IsOpen, hend]
      nofun
    rw [mirror_setConn h hc hsame, or_iff_right hnot, or_iff_right hclosed]
    refine iff_of_true Iff.rfl fun d hd current hcur => ?_
    cases hc.symm.trans hd
    rw [hend] at hcur
    cases hcur
  · cases hstep

end

theorem mirror_step (s : Net) (e : Event) (s' : Net) (h : Mirror config s)
    (hstep : stepNet sign config s e = some s') : Mirror config s' ↔ Alone s e := by
  cases e with
  | dial c => exact iff_of_true (mirror_dial h hstep) trivial
  | accept i => exact iff_of_true (mirror_accept h hstep) trivial
  | acknowledge i => exact mirror_acknowledge h hstep
  | receive i x handle msg => exact iff_of_true (mirror_receive h hstep) trivial
  | close i x => exact mirror_close h hstep

/-- **When the peer states mirror the connections**, in all states of a run. -/
theorem mirror_throughout_iff (sign : String → String) (config : Side → PeerConfig)
    (es : List Event) (s : Net) (hrun : run (stepNet sign config) new es = some s) :
    Throughout (stepNet sign config) (Mirror config) new es ↔
      Guarded (stepNet sign config) Alone new es := by
  have hnew : Mirror config new := by
    intro x
    refine iff_of_false ?_ ?_
    · rintro ⟨entry, hentry, -⟩
      cases hentry
    · rintro ⟨c, hc, -⟩
      cases hc
  exact throughout_iff_guarded mirror_step es hnew hrun

def mac (data : String) : String := "mac " ++ data

def nodes : Side → PeerConfig
  | .left => ⟨"10.0.0.1:4200", "node-a", "first"⟩
  | .right => ⟨"10.0.0.2:4200", "node-b", "second"⟩

def dialled (dial : Dial) (nonce ackNonce addr : String) : Connection :=
  ⟨.left, dial, "m", [], nonce, [], ackNonce, addr, false, fun _ => .pending⟩

def connecting : List Event :=
  [.dial (dialled .connectToPeer "n1" "n2" "10.0.0.1:5001"), .accept 0, .acknowledge 0]

def connectedOnce : List Event := connecting ++ [.close 0 .left, .close 0 .right]

/-- Meanwhile the left node sends a message, for which it opens a connection of its own. -/
def messageSent : List Event :=
  connecting ++
    [.dial (dialled .sendToPeer "n3" "n4" "10.0.0.1:5002"), .accept 1, .acknowledge 1,
      .close 1 .left, .close 1 .right]

/-- The right node takes the left one for disconnected, with the first connection open. -/
theorem message_disconnects :
    ∃ s, run (stepNet mac nodes) new messageSent = some s ∧
      (∃ c ∈ s.conns, c.IsOpen .left ∧ c.IsOpen .right) ∧
      ¬ Marked (s.peers .right) "node-a" ∧ ¬ Mirror nodes s := by
  have hflag : ¬ Marked (((run (stepNet mac nodes) new messageSent).getD new).peers .right)
      "node-a" := by
    decide
  have hmem : ∀ c ∈ ((run (stepNet mac nodes) new messageSent).getD new).conns.head?,
      c.IsOpen .left ∧ c.IsOpen .right := by
    decide
  refine ⟨_, rfl, ⟨_, List.mem_cons_self, hmem _ rfl⟩, hflag, fun hmirror => hflag ?_⟩
  exact (hmirror .right).mpr ⟨_, List.mem_cons_self, (hmem _ rfl).2⟩

theorem not_anotherOpen (h : s.conns.length = 1) : ¬ AnotherOpen s 0 x := by
  rintro ⟨j, hj, c, hc, -⟩
  obtain ⟨hlt, -⟩ := List.getElem?_eq_some_iff.mp hc
  omega

theorem connectedOnce_mirrors :
    Throughout (stepNet mac nodes) (Mirror nodes) new connectedOnce := by
  obtain ⟨s, hrun⟩ : ∃ s, run (stepNet mac nodes) new connectedOnce = some s := ⟨_, rfl⟩
  refine (mirror_throughout_iff mac nodes connectedOnce s hrun).mpr ?_
  have halone {s : Net} {x : Side} (hlen : s.conns.length = 1)
      (hloops : ∀ c ∈ s.conns[0]?, c.loops x = true) : Alone s (.close 0 x) := by
    intro c hc current _
    rw [if_pos (hloops c hc)]
    exact not_anotherOpen hlen
  refine .cons trivial rfl (.cons trivial rfl (.cons (fun c hc hdial => ?_) rfl ?_))
  · cases hc
    cases hdial
  · exact .cons (halone rfl (by decide)) rfl (.cons (halone rfl (by decide)) rfl trivial)

end AlloyAgent.PeerConnections
