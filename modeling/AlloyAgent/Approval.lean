import AlloyAgent.HashTable
import AlloyAgent.Transition

/-!
# The approval protocol

An agent that wants to run a dangerous tool calls `request_approval`, which puts the sending end of
a oneshot channel into a map and waits on the receiving end with a timeout.

* `advance`: the operations of the calls, which interleave in `stepApproval`;
* `Inv`: every id has one call at most, which knows what has happened to it;
* `approval_agreement`: if all answers are in time, answers and decisions agree.
-/

namespace AlloyAgent.Approval

open List Option Transition

abbrev Uuid := String

inductive RiskLevel where
  | low
  | medium
  | high
  | critical
  deriving DecidableEq, Repr

inductive ApprovalDecision where
  | approved
  | denied
  | timedOut
  deriving DecidableEq, Repr

structure ApprovalRequest where
  id : Uuid
  agentId : String
  toolName : String
  description : String
  actionSummary : String
  riskLevel : RiskLevel
  requestedAt : ℕ
  timeoutSecs : ℕ
  deriving DecidableEq, Repr

structure ApprovalResponse where
  requestId : Uuid
  decision : ApprovalDecision
  decidedAt : ℕ
  decidedBy : Option String
  deriving DecidableEq, Repr

/-- A map entry; the sender is named by the call that holds the receiving end. -/
structure PendingRequest where
  request : ApprovalRequest
  sender : ℕ

/-- Max pending requests per agent. -/
def maxPendingPerAgent : ℕ := 5

/-- What the receiving end of a oneshot channel sees. -/
inductive Channel where
  | empty
  | sent (decision : ApprovalDecision)
  /-- the sender was dropped without sending -/
  | closed
  deriving DecidableEq, Repr

/-- Where a `request_approval` call stands: the operation it does next. -/
inductive Pc where
  | count
  | insert
  /-- poll the receiver, then the timer -/
  | waiting (deadline : ℕ) (rx : Channel)
  | remove
  | returned (decision : ApprovalDecision)
  deriving DecidableEq, Repr

structure RequestCall where
  req : ApprovalRequest
  pc : Pc

/-- The manager's map, the `request_approval` calls, and the results of the `resolve` calls. -/
structure Approvals where
  pending : Table Uuid PendingRequest
  calls : List RequestCall
  resolved : List (Uuid × Except String ApprovalResponse)

def new : Approvals := ⟨∅, [], []⟩

/-! ## The two ends of a channel -/

/-- `send`: nothing happens if the receiver is gone. -/
def RequestCall.receive (decision : ApprovalDecision) (c : RequestCall) : RequestCall :=
  match c.pc with
  | .waiting deadline .empty => { c with pc := .waiting deadline (.sent decision) }
  | _ => c

def RequestCall.hangUp (c : RequestCall) : RequestCall :=
  match c.pc with
  | .waiting deadline .empty => { c with pc := .waiting deadline .closed }
  | _ => c

/-- One poll of `timeout(duration, rx)`: first the receiver, then the timer. -/
def poll (now deadline : ℕ) : Channel → Option Pc
  | .sent decision => some (.returned decision)
  | .closed => some .remove
  | .empty => if deadline ≤ now then some .remove else none

def agentPending (pending : Table Uuid PendingRequest) (agentId : String) : ℕ :=
  (pending.pairs.filter fun e => e.2.request.agentId = agentId).length

/-- The calls after the entry of `id`, if there is one, has been dropped. -/
def dropEntry (pending : Table Uuid PendingRequest) (id : Uuid) (calls : List RequestCall) :
    List RequestCall :=
  match pending.lookup id with
  | some old => calls.modify old.sender RequestCall.hangUp
  | none => calls

/-- One operation of the `i`-th call; `none` if it is over or has nothing to do. -/
def advance (now : ℕ) (m : Approvals) (i : ℕ) (c : RequestCall) : Option Approvals :=
  match c.pc with
  | .count =>
    if maxPendingPerAgent ≤ agentPending m.pending c.req.agentId then
      some { m with calls := m.calls.set i { c with pc := .returned .denied } }
    else some { m with calls := m.calls.set i { c with pc := .insert } }
  | .insert =>
    some { m with
      pending := m.pending.insert c.req.id ⟨c.req, i⟩
      calls := (dropEntry m.pending c.req.id m.calls).set i
        { c with pc := .waiting (now + c.req.timeoutSecs) .empty } }
  | .waiting deadline rx =>
    (poll now deadline rx).map fun pc => { m with calls := m.calls.set i { c with pc := pc } }
  | .remove =>
    some { m with
      pending := m.pending.erase c.req.id
      calls := (dropEntry m.pending c.req.id m.calls).set i { c with pc := .returned .timedOut } }
  | .returned _ => none

/-- Resolve a pending request. -/
def resolve (now : ℕ) (m : Approvals) (requestId : Uuid) (decision : ApprovalDecision)
    (decidedBy : Option String) : Except String ApprovalResponse × Approvals :=
  match m.pending.lookup requestId with
  | some entry =>
    (.ok ⟨requestId, decision, now, decidedBy⟩,
      { m with
        pending := m.pending.erase requestId
        calls := m.calls.modify entry.sender (RequestCall.receive decision) })
  | none => (.error s!"No pending approval request with id {requestId}", m)

inductive Event where
  | request (req : ApprovalRequest)
  | advance (i now : ℕ)
  | resolve (requestId : Uuid) (decision : ApprovalDecision) (decidedBy : Option String) (now : ℕ)

def stepApproval (m : Approvals) : Event → Option Approvals
  | .request req => some { m with calls := m.calls ++ [⟨req, .count⟩] }
  | .advance i now => m.calls[i]?.bind (advance now m i)
  | .resolve requestId decision decidedBy now =>
    let (result, m') := resolve now m requestId decision decidedBy
    some { m' with resolved := m'.resolved ++ [(requestId, result)] }

/-- The decisions of the `resolve` calls for `id` that returned `Ok`. -/
def decisions (resolved : List (Uuid × Except String ApprovalResponse)) (id : Uuid) :
    List ApprovalDecision :=
  (resolved.filter fun r => r.1 = id).filterMap fun r => r.2.toOption.map (·.decision)

structure Agreement (m : Approvals) : Prop where
  /-- at most one `resolve` per id returns `Ok` -/
  once : ∀ id, (decisions m.resolved id).length ≤ 1
  /-- its decision is what `request_approval` has returned, or it lies in the channel
  and is returned by the next operation of the call, which the timer cannot prevent -/
  delivered : ∀ id d, d ∈ decisions m.resolved id → ∀ i c, m.calls[i]? = some c → c.req.id = id →
    c.pc = .returned d ∨ ∃ deadline, c.pc = .waiting deadline (.sent d) ∧
      ∀ now, stepApproval m (.advance i now) =
        some { m with calls := m.calls.set i { c with pc := .returned d } }
  /-- `TimedOut` means that no `resolve` returned `Ok` -/
  timedOut : ∀ c ∈ m.calls, c.pc = .returned .timedOut → decisions m.resolved c.req.id = []

/-- An id is requested once, and no `resolve` comes between expiry and removal. -/
def InTime (m : Approvals) : Event → Prop
  | .request req => ∀ c ∈ m.calls, c.req.id ≠ req.id
  | .advance _ _ => True
  | .resolve requestId decision _ _ =>
    ∀ c ∈ m.calls, c.req.id = requestId → c.pc ≠ .remove ∧ decision ≠ .timedOut

/-- What a call knows about the entry and the answers for its id. -/
def Consistent (i : ℕ) (entry : Option PendingRequest) (oks : List ApprovalDecision) : Pc → Prop
  | .count | .insert => entry = none ∧ oks = []
  | .waiting _ .empty | .remove => entry.map PendingRequest.sender = some i ∧ oks = []
  | .waiting _ (.sent d) => entry = none ∧ oks = [d] ∧ d ≠ .timedOut
  | .waiting _ .closed => False
  | .returned d => entry = none ∧ (oks = [] ∨ (oks = [d] ∧ d ≠ .timedOut))

/-- Every id belongs to at most one call, which knows what has happened to it. -/
structure Inv (m : Approvals) : Prop where
  nodup : (m.calls.map (·.req.id)).Nodup
  known : ∀ i c, m.calls[i]? = some c →
    Consistent i (m.pending.lookup c.req.id) (decisions m.resolved c.req.id) c.pc
  unknown : ∀ id, (∀ c ∈ m.calls, c.req.id ≠ id) →
    m.pending.lookup id = none ∧ decisions m.resolved id = []

theorem inv_new : Inv new where
  nodup := nodup_nil
  known := fun i c h => by simp [new] at h
  unknown := fun _ _ => ⟨rfl, rfl⟩

variable {i : ℕ} {c : RequestCall} {calls : List RequestCall}

theorem getElem?_ids (hi : calls[i]? = some c) : (calls.map (·.req.id))[i]? = some c.req.id := by
  rw [getElem?_map, hi, map_some]

variable {m : Approvals}

theorem Inv.index_unique (h : Inv m) (hi : m.calls[i]? = some c) (hj : m.calls[j]? = some d)
    (hid : c.req.id = d.req.id) : i = j := by
  obtain ⟨hlt, -⟩ := List.getElem?_eq_some_iff.mp (getElem?_ids hi)
  apply (getElem?_inj hlt h.nodup).mp
  rw [getElem?_ids hi, getElem?_ids hj, hid]

theorem Inv.update (h : Inv m) (pc : Pc) (hi : m.calls[i]? = some c)
    (hcalls : m'.calls = m.calls.set i { c with pc := pc })
    (hentry : ∀ id, id ≠ c.req.id → m'.pending.lookup id = m.pending.lookup id)
    (hoks : ∀ id, id ≠ c.req.id → decisions m'.resolved id = decisions m.resolved id)
    (hpc : Consistent i (m'.pending.lookup c.req.id) (decisions m'.resolved c.req.id) pc) :
    Inv m' := by
  have hids : m'.calls.map (·.req.id) = m.calls.map (·.req.id) := by
    have hsame := set_of_getElem? (getElem?_ids hi)
    rwa [hcalls, map_set]
  refine ⟨hids ▸ h.nodup, fun j d hj => ?_, fun id hid => ?_⟩
  · rw [hcalls] at hj
    rcases (getElem?_set_eq_some hi _ j d).mp hj with ⟨rfl, rfl⟩ | ⟨hij, hj⟩
    · exact hpc
    · have hne : d.req.id ≠ c.req.id := fun hid => hij (h.index_unique hj hi hid)
      rw [hentry _ hne, hoks _ hne]
      exact h.known j d hj
  · have hold : ∀ d ∈ m.calls, d.req.id ≠ id := by
      intro d hd heq
      have hmem : id ∈ m'.calls.map (·.req.id) := by
        rw [hids]
        exact mem_map.mpr ⟨d, hd, heq⟩
      obtain ⟨d', hd', heq'⟩ := mem_map.mp hmem
      exact hid d' hd' heq'
    have hne : id ≠ c.req.id := fun heq => hold c (mem_of_getElem? hi) heq.symm
    rw [hentry id hne, hoks id hne]
    exact h.unknown id hold

variable {id : Uuid}

/-- Dropping the entry of a call that is no longer waiting changes no call. -/
theorem dropEntry_of_gone (hi : calls[i]? = some c)
    (hentry : (pending.lookup id).map PendingRequest.sender = some i) (hpc : c.pc = .remove) :
    dropEntry pending id calls = calls := by
  obtain ⟨entry, hlookup, rfl⟩ := map_eq_some_iff.mp hentry
  have hsame : c.hangUp = c := by simp [RequestCall.hangUp, hpc]
  simp only [dropEntry, hlookup]
  rw [modify_eq_set hi, hsame, set_of_getElem? hi]

theorem Inv.advance (h : Inv m) (hi : m.calls[i]? = some c) (hadv : advance now m i c = some m') :
    Inv m' := by
  have hc := h.known i c hi
  rw [Approval.advance] at hadv
  split at hadv
  · -- count
    rename_i hpc
    rw [hpc] at hc
    split at hadv <;> cases hadv
    · exact h.update _ hi rfl (fun _ _ => rfl) (fun _ _ => rfl) ⟨hc.1, .inl hc.2⟩
    · exact h.update _ hi rfl (fun _ _ => rfl) (fun _ _ => rfl) hc
  · -- insert: there is no entry that would be replaced
    rename_i hpc
    rw [hpc] at hc
    cases hadv
    refine h.update (.waiting (now + c.req.timeoutSecs) .empty) hi ?_
      (fun id hne => AList.lookup_insert_ne hne) (fun _ _ => rfl) ?_
    · simp only [dropEntry, hc.1]
    · exact ⟨by simp only [AList.lookup_insert, map_some], hc.2⟩
  · -- waiting
    rename_i deadline rx hpc
    rw [hpc] at hc
    obtain ⟨pc, hpoll, rfl⟩ := map_eq_some_iff.mp hadv
    refine h.update _ hi rfl (fun _ _ => rfl) (fun _ _ => rfl) ?_
    cases rx with
    | sent d =>
      cases hpoll
      exact ⟨hc.1, .inr hc.2⟩
    | closed => exact hc.elim
    | empty =>
      rw [poll] at hpoll
      split at hpoll
      · cases hpoll
        exact hc
      · cases hpoll
  · -- remove
    rename_i hpc
    rw [hpc] at hc
    cases hadv
    refine h.update (.returned .timedOut) hi ?_
      (fun id hne => AList.lookup_erase_ne hne) (fun _ _ => rfl) ?_
    · rw [dropEntry_of_gone hi hc.1 hpc]
    · exact ⟨AList.lookup_erase _ _, .inl hc.2⟩
  · cases hadv

theorem decisions_append (resolved : List (Uuid × Except String ApprovalResponse)) (id id' : Uuid)
    (r : Except String ApprovalResponse) :
    decisions (resolved ++ [(id', r)]) id =
      decisions resolved id ++ if id' = id then (r.toOption.map (·.decision)).toList else [] := by
  simp only [decisions, filter_append, filterMap_append]
  congr 1
  split_ifs with hid
  · cases r <;> simp [hid, Except.toOption]
  · simp [hid]

theorem Inv.waiting_of_entry (h : Inv m) (hlookup : m.pending.lookup id = some entry) :
    ∃ c, m.calls[entry.sender]? = some c ∧ c.req.id = id ∧ decisions m.resolved id = [] ∧
      (c.pc = .remove ∨ ∃ deadline, c.pc = .waiting deadline .empty) := by
  obtain ⟨c, hmem, hid⟩ : ∃ c ∈ m.calls, c.req.id = id := by
    by_contra hnone
    push Not at hnone
    rw [(h.unknown id hnone).1] at hlookup
    cases hlookup
  obtain ⟨i, hi⟩ := getElem?_of_mem hmem
  have hc := h.known i c hi
  rw [hid, hlookup] at hc
  cases hpc : c.pc with
  | waiting deadline rx =>
    rw [hpc] at hc
    cases rx with
    | empty =>
      cases hc.1
      exact ⟨c, hi, hid, hc.2, .inr ⟨deadline, hpc⟩⟩
    | sent d => cases hc.1
    | closed => exact hc.elim
  | remove =>
    rw [hpc] at hc
    cases hc.1
    exact ⟨c, hi, hid, hc.2, .inl hpc⟩
  | count | insert | returned d =>
    rw [hpc] at hc
    cases hc.1

theorem Inv.resolve (h : Inv m) (hok : InTime m (.resolve id d decidedBy now)) :
    Inv { (resolve now m id d decidedBy).2 with
      resolved := (resolve now m id d decidedBy).2.resolved ++
        [(id, (resolve now m id d decidedBy).1)] } := by
  rw [Approval.resolve]
  cases hlookup : m.pending.lookup id with
  | none =>
    -- an error changes neither the map nor the decisions
    have hsame : ∀ e id', decisions (m.resolved ++ [(id, .error e)]) id' =
        decisions m.resolved id' := by
      intro e id'
      rw [decisions_append]
      split_ifs <;> exact append_nil _
    refine ⟨h.nodup, fun i c hi => ?_, fun id' hid' => ?_⟩
    · dsimp only
      rw [hsame]
      exact h.known i c hi
    · dsimp only
      rw [hsame]
      exact h.unknown id' hid'
  | some entry =>
    obtain ⟨c, hi, rfl, hoks, hpc⟩ := h.waiting_of_entry hlookup
    obtain ⟨hnot, hdecision⟩ := hok c (mem_of_getElem? hi) rfl
    obtain ⟨deadline, hpc⟩ := hpc.resolve_left hnot
    refine h.update (.waiting deadline (.sent d)) hi ?_
      (fun id hne => AList.lookup_erase_ne hne) (fun id hne => by
        rw [decisions_append, if_neg (Ne.symm hne), append_nil]) ?_
    · simp only [modify_eq_set hi, RequestCall.receive, hpc]
    · refine ⟨AList.lookup_erase _ _, ?_, hdecision⟩
      rw [decisions_append, if_pos rfl, hoks]
      rfl

theorem Inv.step (m : Approvals) (e : Event) (m' : Approvals) (h : Inv m) (hok : InTime m e)
    (hstep : stepApproval m e = some m') : Inv m' := by
  cases e with
  | request req =>
    cases hstep
    refine ⟨?_, fun i c hi => ?_, fun id hid => ?_⟩
    · rw [map_append, map_singleton]
      refine nodup_append'.mpr ⟨h.nodup, nodup_singleton _, ?_⟩
      intro id hid hnew
      obtain ⟨c, hc, rfl⟩ := mem_map.mp hid
      exact hok c hc (mem_singleton.mp hnew)
    · rw [getElem?_append] at hi
      split_ifs at hi
      · exact h.known i c hi
      · obtain rfl := mem_singleton.mp (mem_of_getElem? hi)
        exact h.unknown req.id hok
    · exact h.unknown id fun c hc => hid c (mem_append_left _ hc)
  | advance i now =>
    obtain ⟨c, hi, hadv⟩ := bind_eq_some_iff.mp hstep
    exact h.advance hi hadv
  | resolve id d decidedBy now =>
    cases hstep
    exact h.resolve hok

/-- There is no answer, or the call has returned it or will return it. -/
theorem Consistent.answer (h : Consistent i entry oks pc) :
    oks = [] ∨ ∃ d, oks = [d] ∧ d ≠ .timedOut ∧
      (pc = .returned d ∨ ∃ deadline, pc = .waiting deadline (.sent d)) := by
  cases pc with
  | count | insert | remove => exact .inl h.2
  | waiting deadline rx =>
    cases rx with
    | empty => exact .inl h.2
    | sent d => exact .inr ⟨d, h.2.1, h.2.2, .inr ⟨deadline, rfl⟩⟩
    | closed => exact h.elim
  | returned d =>
    rcases h.2 with hnil | ⟨hone, hne⟩
    · exact .inl hnil
    · exact .inr ⟨d, hone, hne, .inl rfl⟩

theorem Inv.agreement (h : Inv m) : Agreement m where
  once := by
    intro id
    by_cases hid : ∃ c ∈ m.calls, c.req.id = id
    · obtain ⟨c, hmem, rfl⟩ := hid
      obtain ⟨i, hi⟩ := getElem?_of_mem hmem
      rcases (h.known i c hi).answer with hnil | ⟨d, hone, -⟩
      · simp [hnil]
      · simp [hone]
    · push Not at hid
      simp [(h.unknown id hid).2]
  delivered := by
    rintro id d hd i c hi rfl
    rcases (h.known i c hi).answer with hnil | ⟨d', hone, -, hpc⟩
    · simp [hnil] at hd
    · obtain rfl : d = d' := by simpa [hone] using hd
      rcases hpc with hpc | ⟨deadline, hpc⟩
      · exact .inl hpc
      · refine .inr ⟨deadline, hpc, fun now => ?_⟩
        simp only [stepApproval, hi, bind_some, Approval.advance, hpc, poll,
          map_some]
  timedOut := by
    intro c hmem hpc
    obtain ⟨i, hi⟩ := getElem?_of_mem hmem
    rcases (h.known i c hi).answer with hnil | ⟨d, -, hne, hreturned | ⟨deadline, hwaiting⟩⟩
    · exact hnil
    · exact absurd (Pc.returned.inj (hreturned.symm.trans hpc)) hne
    · cases hwaiting.symm.trans hpc

/-- **Agreement of the approval protocol**, in every run that keeps out of the gap. -/
theorem approval_agreement (es : List Event) (m : Approvals)
    (hok : Guarded stepApproval InTime new es) (hrun : run stepApproval new es = some m) :
    Agreement m :=
  (run_guarded Inv.step es inv_new hok hrun).agreement

def deleteRequest : ApprovalRequest :=
  ⟨"r1", "agent-1", "file_delete", "delete a file", "rm report.txt", .high, 0, 10⟩

def answeredInTime : List Event :=
  [.request deleteRequest, .advance 0 0, .advance 0 0, .resolve "r1" .approved none 7,
    .advance 0 7]

theorem answeredInTime_agrees :
    ∃ m, run stepApproval new answeredInTime = some m ∧ Agreement m ∧
      decisions m.resolved "r1" = [.approved] ∧ m.calls.map (·.pc) = [.returned .approved] := by
  have hok : Guarded stepApproval InTime new answeredInTime := by
    refine .cons (fun c hc => ?_) rfl (.cons trivial rfl (.cons trivial rfl ?_))
    · cases hc
    · refine .cons (fun c hc _ => ?_) rfl (.cons trivial rfl trivial)
      obtain rfl := mem_singleton.mp hc
      exact ⟨by decide, by decide⟩
  exact ⟨_, rfl, approval_agreement _ _ hok rfl, rfl, rfl⟩

def answeredInGap : List Event :=
  [.request deleteRequest, .advance 0 0, .advance 0 0, .advance 0 10,
    .resolve "r1" .approved none 10, .advance 0 10]

/-- The operator is told "approved" and the agent "timed out". -/
theorem late_approval_lost :
    ∃ m, run stepApproval new answeredInGap = some m ∧
      m.resolved = [("r1", .ok ⟨"r1", .approved, 10, none⟩)] ∧
      m.calls.map (·.pc) = [.returned .timedOut] ∧ ¬ Agreement m := by
  refine ⟨_, rfl, rfl, rfl, fun h => ?_⟩
  have hnone := h.timedOut _ (mem_singleton.mpr rfl) rfl
  exact absurd hnone (by decide)

end AlloyAgent.Approval
