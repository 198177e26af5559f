import Mathlib.Data.List.Nodup
import Mathlib.Data.List.Perm.Subperm
import AlloyAgent.Transition
import AlloyAgent.Wire

/-!
# Who an inbound handshake comes from

Nodes that share a secret start handshakes towards the addresses of other nodes.

* `stepSystem`: honest nodes, and an attacker without the secret;
* `handshake_agreement`: in untampered runs the two sides agree.
-/

namespace AlloyAgent.PeerHandshake

open List Transition Wire

/-- The text of a random identifier. -/
abbrev Nonce := { s : String // s.length = 36 }

/-- A handshake that a listener has accepted, and the peer that it has registered. -/
structure Accepted where
  listener : SocketAddr
  hello : Hello
  entry : PeerEntry

/-- The nonces of honest nodes, the handshakes started and accepted, the acknowledgements. -/
structure System where
  nonces : List String
  started : List (SocketAddr × Hello)
  acks : List Hello
  accepted : List Accepted

def new : System := ⟨[], [], [], []⟩

/-- A step of an honest node, or of the attacker. -/
inductive Event where
  /-- `connect_to_peer` or `send_to_peer`: a node starts a handshake -/
  | start (node : PeerConfig) (agents : List RemoteAgentInfo) (addr : SocketAddr) (nonce : Nonce)
  /-- a message arrives first on an inbound connection of a listener -/
  | deliver (listener : PeerConfig) (agents : List RemoteAgentInfo) (ackNonce : Nonce)
      (addr : SocketAddr) (msg : WireMessage)

/-- The handshakes and acknowledgements that honest nodes have sent. -/
def System.sent (s : System) : List Hello := s.started.map (·.2) ++ s.acks

def hello? (msg : WireMessage) : Option Hello :=
  match msg.kind with
  | .request (.handshake hello) => some hello
  | _ => none

variable (sign : String → String)

/-- The attacker can send the message: a code in it that is right was sent by an honest node. -/
def Sendable (s : System) (msg : WireMessage) : Prop :=
  ∀ hello ∈ hello? msg, verified sign hello = true → hello.authHmac ∈ s.sent.map (·.authHmac)

instance (s : System) (msg : WireMessage) : Decidable (Sendable sign s msg) :=
  inferInstanceAs (Decidable (∀ hello ∈ hello? msg, _))

/-- One step. Honest nodes generate fresh nonces; a refused message changes nothing. -/
def stepSystem (s : System) : Event → Option System
  | .start node agents addr nonce =>
    if nonce.1 ∈ s.nonces then none
    else
      some { s with
        nonces := nonce.1 :: s.nonces
        started := s.started ++ [(addr, node.hello sign agents nonce)] }
  | .deliver listener agents ackNonce addr msg =>
    if ackNonce.1 ∈ s.nonces ∨ ¬ Sendable sign s msg then none
    else
      match hello? msg, handleInbound sign listener agents ackNonce addr msg with
      | some hello, (⟨_, .response (.handshakeAck ack)⟩, .ok entry) =>
        some { s with
          nonces := ackNonce.1 :: s.nonces
          acks := s.acks ++ [ack]
          accepted := s.accepted ++ [⟨listener.listenAddr, hello, entry⟩] }
      | _, _ => some s

/-- What the two sides should agree on: the listener, the node id, the node name and the agents. -/
abbrev View := SocketAddr × String × String × List RemoteAgentInfo

def Accepted.view (a : Accepted) : View :=
  (a.listener, a.entry.nodeId, a.entry.nodeName, a.entry.agents)

def startedView (d : SocketAddr × Hello) : View := (d.1, d.2.nodeId, d.2.nodeName, d.2.agents)

/-- Each accepted handshake corresponds to a different one that an honest node has started. -/
def Agreement (s : System) : Prop :=
  (s.accepted.map Accepted.view).Subperm (s.started.map startedView)

instance (s : System) : Decidable (Agreement s) := inferInstanceAs (Decidable (List.Subperm _ _))

/-- A handshake with a code of an honest node arrives once, as it was started, where it was
started to, and was not made from an acknowledgement. -/
def Untampered (s : System) : Event → Prop
  | .start .. => True
  | .deliver listener _ _ _ msg =>
    ∀ hello ∈ hello? msg, hello.authHmac ∈ s.sent.map (·.authHmac) →
      hello.nonce.length = 36 ∧
      (∀ a ∈ s.accepted, a.hello.nonce ≠ hello.nonce) ∧
      (∀ ack ∈ s.acks, ack.nonce ≠ hello.nonce) ∧
      ∀ d ∈ s.started, d.2.nonce = hello.nonce →
        d.1 = listener.listenAddr ∧ d.2.nodeName = hello.nodeName ∧ d.2.agents = hello.agents

instance (s : System) (e : Event) : Decidable (Untampered s e) :=
  match e with
  | .start .. => inferInstanceAs (Decidable True)
  | .deliver _ _ _ _ msg => inferInstanceAs (Decidable (∀ hello ∈ hello? msg, _))

variable {sign} {s s' : System} {ackNonce : Nonce} {addr : SocketAddr}
  {agents : List RemoteAgentInfo} {nonces : List String}

theorem stepSystem_deliver
    (h : stepSystem sign s (.deliver listener agents ackNonce addr msg) = some s') :
    Sendable sign s msg ∧ (s' = s ∨ ∃ hello ∈ hello? msg,
      hello.protocolVersion = protocolVersion ∧ verified sign hello = true ∧
      s' = { s with
        nonces := ackNonce.1 :: s.nonces
        acks := s.acks ++ [listener.hello sign agents ackNonce]
        accepted := s.accepted ++ [⟨listener.listenAddr, hello, hello.entry addr⟩] }) := by
  rw [stepSystem] at h
  split_ifs at h with hpossible
  refine ⟨not_not.mp fun hnot => hpossible (.inr hnot), ?_⟩
  split at h
  · rename_i hello id ack entry hhello hinbound
    cases h
    obtain ⟨hello', hkind, hversion, hver, hreply, rfl⟩ := handleInbound_eq_ok.mp hinbound
    obtain rfl : hello' = hello := by
      rw [hello?, hkind] at hhello
      exact Option.some.inj hhello
    obtain rfl : ack = listener.hello sign agents ackNonce := by
      injection hreply with _ hresponse
      injection hresponse with hresponse
      injection hresponse
    exact .inr ⟨hello', hhello, hversion, hver, rfl⟩
  · exact .inl (Option.some.inj h).symm

theorem stepSystem_start (h : stepSystem sign s (.start node agents addr nonce) = some s') :
    s' = { s with
      nonces := nonce.1 :: s.nonces
      started := s.started ++ [(addr, node.hello sign agents nonce)] } := by
  rw [stepSystem] at h
  split_ifs at h
  exact (Option.some.inj h).symm

theorem mem_sent_start :
    hello ∈ { s with nonces := nonces, started := s.started ++ [(addr, hello')] }.sent ↔
      hello ∈ s.sent ∨ hello = hello' := by
  simp only [System.sent, map_append, map_singleton, mem_append,
    mem_singleton]
  exact or_right_comm

theorem mem_sent_ack {ack : Hello} :
    hello ∈ { s with nonces := nonces, acks := s.acks ++ [ack], accepted := accepted }.sent ↔
      hello ∈ s.sent ∨ hello = ack := by
  simp only [System.sent, mem_append, mem_singleton, or_assoc]

/-- What an honest node has sent: the nonce is one, and the code is right. -/
def Genuine (sign : String → String) (hello : Hello) : Prop :=
  hello.nonce.length = 36 ∧ verified sign hello = true

theorem signed_inj (hsign : Function.Injective sign) (hg₁ : Genuine sign h₁) (hg₂ : Genuine sign h₂)
    (heq : h₁.authHmac = h₂.authHmac) : h₁.nonce = h₂.nonce ∧ h₁.nodeId = h₂.nodeId := by
  obtain ⟨hlen₁, hver₁⟩ := hg₁
  obtain ⟨hlen₂, hver₂⟩ := hg₂
  rw [verified, decide_eq_true_eq] at hver₁ hver₂
  have htext := congrArg String.toList (hsign (hver₁.trans (heq.trans hver₂.symm)))
  rw [String.toList_append, String.toList_append] at htext
  have hlen : h₁.nonce.toList.length = h₂.nonce.toList.length := by
    rw [String.length_toList, String.length_toList, hlen₁, hlen₂]
  obtain ⟨hnonce, hid⟩ := append_inj htext hlen
  exact ⟨String.toList_inj.mp hnonce, String.toList_inj.mp hid⟩

/-- A handshake with its nonce, which makes it unique. -/
def Accepted.key (a : Accepted) : View × String := (a.view, a.hello.nonce)

def startedKey (d : SocketAddr × Hello) : View × String := (startedView d, d.2.nonce)

structure Inv (sign : String → String) (s : System) : Prop where
  genuine : ∀ hello ∈ s.sent, Genuine sign hello
  nodup : (s.accepted.map (·.hello.nonce)).Nodup
  agree : ∀ a ∈ s.accepted, a.key ∈ s.started.map startedKey

theorem Inv.agreement (h : Inv sign s) : Agreement s := by
  have hnodup : (s.accepted.map Accepted.key).Nodup := by
    refine List.Nodup.of_map Prod.snd ?_
    rw [map_map]
    exact h.nodup
  have hsubset : s.accepted.map Accepted.key ⊆ s.started.map startedKey := by
    intro k hk
    obtain ⟨a, ha, rfl⟩ := mem_map.mp hk
    exact h.agree a ha
  obtain ⟨l, hperm, hsub⟩ := subperm_of_subset hnodup hsubset
  have hviews := hsub.map Prod.fst
  have hsame := hperm.map Prod.fst
  rw [map_map] at hviews hsame
  exact ⟨l.map Prod.fst, hsame, hviews⟩

theorem Inv.step (hsign : Function.Injective sign) (s : System) (e : Event) (s' : System)
    (h : Inv sign s) (hok : Untampered s e) (hstep : stepSystem sign s e = some s') :
    Inv sign s' := by
  cases e with
  | start node agents addr nonce =>
    obtain rfl := stepSystem_start hstep
    refine ⟨fun hello hmem => ?_, h.nodup, fun a ha => ?_⟩
    · rcases mem_sent_start.mp hmem with hmem | rfl
      · exact h.genuine hello hmem
      · exact ⟨nonce.2, verified_hello sign node agents nonce⟩
    · rw [map_append]
      exact mem_append_left _ (h.agree a ha)
  | deliver listener agents ackNonce addr msg =>
    obtain ⟨hsendable, rfl | ⟨hello, hhello, -, hver, rfl⟩⟩ := stepSystem_deliver hstep
    · exact h
    · have htag := hsendable hello hhello hver
      obtain ⟨hlen, hfresh, hnoack, hmeant⟩ := hok hello hhello htag
      -- the honest message whose code this is: a handshake with this nonce and id
      obtain ⟨sent, hsent, heq⟩ := mem_map.mp htag
      obtain ⟨hnonce, hid⟩ := signed_inj hsign (h.genuine sent hsent) ⟨hlen, hver⟩ heq
      have hstarted : ∃ d ∈ s.started, d.2 = sent := by
        rcases mem_append.mp hsent with hmem | hmem
        · exact mem_map.mp hmem
        · exact absurd hnonce (hnoack sent hmem)
      obtain ⟨d, hd, rfl⟩ := hstarted
      obtain ⟨haddr, hname, hagents⟩ := hmeant d hd hnonce
      refine ⟨fun hello' hmem => ?_, ?_, fun a ha => ?_⟩
      · rcases mem_sent_ack.mp hmem with hmem | rfl
        · exact h.genuine hello' hmem
        · exact ⟨ackNonce.2, verified_hello sign listener agents ackNonce⟩
      · rw [map_append, map_singleton, nodup_append']
        refine ⟨h.nodup, nodup_singleton _, ?_⟩
        rw [disjoint_singleton]
        intro hmem
        obtain ⟨a, ha, hsame⟩ := mem_map.mp hmem
        exact hfresh a ha hsame
      · rw [mem_append, mem_singleton] at ha
        rcases ha with ha | rfl
        · exact h.agree a ha
        · refine mem_map.mpr ⟨d, hd, ?_⟩
          simp only [startedKey, startedView, Accepted.key, Accepted.view, Hello.entry, haddr, hid,
            hname, hagents, hnonce]

/-- **Agreement of the handshakes**, in every run in which none was replayed, shifted, made from
an acknowledgement, redirected or changed. -/
theorem handshake_agreement (hsign : Function.Injective sign) (es : List Event) (s : System)
    (hrun : run (stepSystem sign) new es = some s)
    (hok : Guarded (stepSystem sign) Untampered new es) : Agreement s := by
  have hnew : Inv sign new := ⟨nofun, nodup_nil, nofun⟩
  exact (run_guarded (Inv.step hsign) es hnew hok hrun).agreement

def mac (data : String) : String := "mac " ++ data

theorem mac_injective : Function.Injective mac := by
  intro a b h
  have h := congrArg String.toList h
  rw [mac, mac, String.toList_append, String.toList_append] at h
  exact String.toList_inj.mp (append_cancel_left h)

def nodeA : PeerConfig := ⟨"10.0.0.1:4200", "node-a", "first"⟩

def nodeB : PeerConfig := ⟨"10.0.0.2:4200", "node-b", "second"⟩

def nodeC : PeerConfig := ⟨"10.0.0.3:4200", "node-c", "third"⟩

def nonce₁ : Nonce := ⟨"00000000-0000-4000-8000-000000000001", by decide⟩

def nonce₂ : Nonce := ⟨"00000000-0000-4000-8000-000000000002", by decide⟩

def nonce₃ : Nonce := ⟨"00000000-0000-4000-8000-000000000003", by decide⟩

def greeting : Hello := nodeA.hello mac [] nonce₁

def handshakeMsg (hello : Hello) : WireMessage := ⟨"m", .request (.handshake hello)⟩

/-- The first node starts a handshake towards the second, and it arrives there. -/
def honest : List Event :=
  [.start nodeA [] nodeB.listenAddr nonce₁, .deliver nodeB [] nonce₂ "10.0.0.1:5000"
    (handshakeMsg greeting)]

def replayed : List Event :=
  honest ++ [.deliver nodeB [] nonce₃ "10.0.0.9:5000" (handshakeMsg greeting)]

def renamed : List Event :=
  [.start nodeA [] nodeB.listenAddr nonce₁, .deliver nodeB [] nonce₂ "10.0.0.9:5000"
    (handshakeMsg { greeting with nodeName := "other" })]

def redirected : List Event :=
  [.start nodeA [] nodeB.listenAddr nonce₁, .deliver nodeC [] nonce₂ "10.0.0.9:5000"
    (handshakeMsg greeting)]

/-- The acknowledgement of the second node arrives as a handshake. -/
def reflected : List Event :=
  honest ++ [.deliver nodeC [] nonce₃ "10.0.0.9:5000" (handshakeMsg (nodeB.hello mac [] nonce₂))]

/-- The first letter of the node id has become the last one of the nonce. -/
def shifted : List Event :=
  [.start nodeA [] nodeB.listenAddr nonce₁, .deliver nodeB [] nonce₂ "10.0.0.9:5000"
    (handshakeMsg { greeting with nonce := nonce₁.1 ++ "n", nodeId := "ode-a" })]

/-- Each of the five attacks breaks the agreement. -/
theorem attacks_succeed :
    Function.Injective mac ∧
      ∀ es ∈ [replayed, renamed, redirected, reflected, shifted],
        ∃ s, run (stepSystem mac) new es = some s ∧ ¬ Agreement s := by
  refine ⟨mac_injective, ?_⟩
  rw [forall_mem_cons, forall_mem_cons, forall_mem_cons, forall_mem_cons,
    forall_mem_singleton]
  exact ⟨⟨_, rfl, by decide⟩, ⟨_, rfl, by decide⟩, ⟨_, rfl, by decide⟩, ⟨_, rfl, by decide⟩,
    _, rfl, by decide⟩

theorem honest_agrees :
    ∃ s, run (stepSystem mac) new honest = some s ∧ s.accepted.map Accepted.view ≠ [] ∧
      Agreement s := by
  refine ⟨_, rfl, by decide, handshake_agreement mac_injective honest _ rfl ?_⟩
  exact .cons trivial rfl (.cons (by decide) rfl trivial)

end AlloyAgent.PeerHandshake
