import AlloyAgent.Transition

/-!
# Reading from a TCP socket

`smol_recv` of AlloyStack's socket service, on top of smoltcp.

* `inv_step`: no event loses a byte;
* `reads_faithful_iff`: the runs in which the end of the data is where the caller sees it;
* `recv_returns`: a call returns within two rounds.
-/

namespace AlloyAgent.SocketRecv

open List Option Transition

/-- The states of a connection that the local side does not close. -/
inductive Connection where
  /-- `SynSent` or `SynReceived`: `smol_connect` and `smol_accept` do not wait longer -/
  | handshake
  | established
  | closeWait
  deriving DecidableEq

/-- A call of `smol_recv`: the size of the buffer and what has been read into it. -/
structure Call where
  size : ℕ
  read : List UInt8
  deriving DecidableEq

structure State where
  connection : Connection
  queue : List UInt8
  call : Option Call
  arrived : List UInt8
  returned : List UInt8
  ended : Bool
  deriving DecidableEq

def init : State := ⟨.handshake, [], none, [], [], false⟩

def State.mayRecv (s : State) : Bool := s.connection = .established || !s.queue.isEmpty

def State.canRecv (s : State) : Bool := s.mayRecv && !s.queue.isEmpty

inductive Event where
  | establish
  | arrive (segment : List UInt8)
  | fin
  | call (size : ℕ)
  /-- a round of its loop; the first piece of the queue has the given length -/
  | round (contiguous : ℕ)
  deriving DecidableEq

/-- `break` and `Ok(cursor)`. -/
def State.return (s : State) (c : Call) : State :=
  { s with
    call := none
    returned := s.returned ++ c.read
    ended := s.ended || c.read.isEmpty }

/-- `tcp_socket.recv(...)`: the closure takes what fits into the buffer. -/
def State.recv (s : State) (c : Call) (contiguous : ℕ) : State :=
  let size := min (c.size - c.read.length) contiguous
  { s with
    queue := s.queue.drop size
    call := some { c with read := c.read ++ s.queue.take size } }

def State.round (s : State) (c : Call) (contiguous : ℕ) : State :=
  if c.read ≠ [] ∨ s.mayRecv = false ∨ s.connection = .closeWait then s.return c
  else if s.canRecv then s.recv c contiguous
  else s

def step (s : State) : Event → Option State
  | .establish =>
    if s.connection = .handshake then some { s with connection := .established } else none
  | .arrive segment =>
    if s.connection = .established then
      some { s with queue := s.queue ++ segment, arrived := s.arrived ++ segment }
    else none
  | .fin =>
    if s.connection = .established then some { s with connection := .closeWait } else none
  | .call size =>
    if s.call = none ∧ s.ended = false ∧ 0 < size then some { s with call := some ⟨size, []⟩ }
    else none
  | .round contiguous =>
    match s.call with
    | none => none
    | some c =>
      if contiguous ≤ s.queue.length ∧ (s.queue ≠ [] → 0 < contiguous) then
        some (s.round c contiguous)
      else none

/-- At the first `Ok(0)` the peer has closed its side and all that it sent has been returned. -/
def Faithful (s : State) : Prop :=
  s.ended = true → s.connection = .closeWait ∧ s.returned = s.arrived

/-- A round with nothing read finds the connection established, or nothing left to read. -/
def Drained (s : State) : Event → Prop
  | .round _ => ∀ c, s.call = some c → c.read = [] →
      s.connection = .established ∨ (s.connection = .closeWait ∧ s.queue = [])
  | _ => True

section

variable {s s' : State} {e : Event}

/-- What has been read into the buffer of the caller. -/
def State.inHand (s : State) : List UInt8 := (s.call.map Call.read).getD []

/-- The bytes are somewhere, in order; before the first nothing is read, after the end no call. -/
structure Inv (s : State) : Prop where
  conserved : s.returned ++ s.inHand ++ s.queue = s.arrived
  handshake : s.connection = .handshake → s.queue = []
  noCall : s.ended = true → s.call = none

theorem inv_init : Inv init := ⟨rfl, fun _ => rfl, nofun⟩

theorem round_cases (hinv : Inv s) (c : Call) (contiguous : ℕ) :
    ((c.read ≠ [] ∨ s.connection ≠ .established) ∧ s.round c contiguous = s.return c) ∨
    (c.read = [] ∧ s.connection = .established ∧ s.queue ≠ [] ∧
      s.round c contiguous = s.recv c contiguous) ∨
    (c.read = [] ∧ s.connection = .established ∧ s.queue = [] ∧ s.round c contiguous = s) := by
  by_cases hreturn : c.read ≠ [] ∨ s.connection ≠ .established
  · refine .inl ⟨hreturn, if_pos ?_⟩
    rcases hreturn with hread | hconnection
    · exact .inl hread
    · cases hstate : s.connection with
      | handshake => exact .inr (.inl (by simp [State.mayRecv, hstate, hinv.handshake hstate]))
      | established => exact absurd hstate hconnection
      | closeWait => exact .inr (.inr rfl)
  · push Not at hreturn
    obtain ⟨hread, hconnection⟩ := hreturn
    have hgo : ¬ (c.read ≠ [] ∨ s.mayRecv = false ∨ s.connection = .closeWait) := by
      simp [hread, hconnection, State.mayRecv]
    rw [State.round, if_neg hgo]
    by_cases hqueue : s.queue = []
    · exact .inr (.inr ⟨hread, hconnection, hqueue, if_neg (by simp [State.canRecv, hqueue])⟩)
    · refine .inr (.inl ⟨hread, hconnection, hqueue, if_pos ?_⟩)
      simp [State.canRecv, State.mayRecv, hconnection, hqueue]

theorem step_cases (hinv : Inv s) (h : step s e = some s') :
    (e = .establish ∧ s.connection = .handshake ∧ s' = { s with connection := .established }) ∨
    (∃ segment, e = .arrive segment ∧ s.connection = .established ∧
      s' = { s with queue := s.queue ++ segment, arrived := s.arrived ++ segment }) ∨
    (e = .fin ∧ s.connection = .established ∧ s' = { s with connection := .closeWait }) ∨
    (∃ size, e = .call size ∧ s.call = none ∧ s.ended = false ∧
      s' = { s with call := some ⟨size, []⟩ }) ∨
    (∃ contiguous c, e = .round contiguous ∧ s.call = some c ∧ (s.queue ≠ [] → 0 < contiguous) ∧
      (((c.read ≠ [] ∨ s.connection ≠ .established) ∧ s' = s.return c) ∨
        (c.read = [] ∧ s.connection = .established ∧
          (s' = s.recv c contiguous ∨ s.queue = [] ∧ s' = s)))) := by
  cases e with
  | establish =>
    rw [step] at h
    split_ifs at h with hs
    exact .inl ⟨rfl, hs, (some.inj h).symm⟩
  | arrive segment =>
    rw [step] at h
    split_ifs at h with hs
    exact .inr (.inl ⟨segment, rfl, hs, (some.inj h).symm⟩)
  | fin =>
    rw [step] at h
    split_ifs at h with hs
    exact .inr (.inr (.inl ⟨rfl, hs, (some.inj h).symm⟩))
  | call size =>
    rw [step] at h
    split_ifs at h with hs
    exact .inr (.inr (.inr (.inl ⟨size, rfl, hs.1, hs.2.1, (some.inj h).symm⟩)))
  | round contiguous =>
    rw [step] at h
    cases hcall : s.call with
    | none =>
      rw [hcall] at h
      cases h
    | some c =>
      rw [hcall] at h
      split_ifs at h with hpiece
      cases h
      refine .inr (.inr (.inr (.inr ⟨contiguous, c, rfl, rfl, hpiece.2, ?_⟩)))
      rcases round_cases hinv c contiguous with ⟨hreturn, heq⟩ | ⟨hread, hs, -, heq⟩ |
        ⟨hread, hs, hqueue, heq⟩
      · exact .inl ⟨hreturn, heq⟩
      · exact .inr ⟨hread, hs, .inl heq⟩
      · exact .inr ⟨hread, hs, .inr ⟨hqueue, heq⟩⟩

variable {c : Call}

theorem not_ended (hinv : Inv s) (hcall : s.call = some c) : s.ended = false := by
  by_contra hended
  have hnone := hinv.noCall (by simpa using hended)
  rw [hcall] at hnone
  cases hnone

theorem inv_return (hinv : Inv s) (hcall : s.call = some c) : Inv (s.return c) := by
  refine ⟨?_, hinv.handshake, fun _ => rfl⟩
  have hconserved := hinv.conserved
  rw [State.inHand, hcall] at hconserved
  exact (congrArg (· ++ s.queue) (append_nil _)).trans hconserved

theorem inv_recv (hinv : Inv s) (hcall : s.call = some c) (contiguous : ℕ) :
    Inv (s.recv c contiguous) := by
  have hended := not_ended hinv hcall
  refine ⟨?_, fun hs => ?_, fun h => ?_⟩
  · have hconserved := hinv.conserved
    rw [State.inHand, hcall] at hconserved
    rw [State.recv, State.inHand, ← hconserved]
    simp only [map_some, getD_some, append_assoc, take_append_drop]
  · exact drop_eq_nil_of_le (by rw [hinv.handshake hs]; exact Nat.zero_le _)
  · cases hended.symm.trans h

/-- **Bytes are conserved.** -/
theorem inv_step (s : State) (e : Event) (s' : State) (hinv : Inv s) (hstep : step s e = some s') :
    Inv s' := by
  rcases step_cases hinv hstep with ⟨-, -, rfl⟩ | ⟨segment, -, hs, rfl⟩ | ⟨-, -, rfl⟩ |
    ⟨size, -, hcall, hended, rfl⟩ | ⟨contiguous, c, -, hcall, -, ⟨-, rfl⟩ | ⟨-, -, rfl | ⟨-, rfl⟩⟩⟩
  · exact ⟨hinv.conserved, nofun, hinv.noCall⟩
  · refine ⟨?_, fun h => ?_, hinv.noCall⟩
    · exact (append_assoc ..).symm.trans (congrArg (· ++ segment) hinv.conserved)
    · cases hs.symm.trans h
  · exact ⟨hinv.conserved, nofun, hinv.noCall⟩
  · refine ⟨?_, hinv.handshake, fun h => ?_⟩
    · have hconserved := hinv.conserved
      rw [State.inHand, hcall] at hconserved
      exact hconserved
    · cases hended.symm.trans h
  · exact inv_return hinv hcall
  · exact inv_recv hinv hcall contiguous
  · exact hinv

/-! ## The end of the stream -/

theorem faithful_return_nil_iff (hinv : Inv s) (hcall : s.call = some c) (hread : c.read = []) :
    Faithful (s.return c) ↔ s.connection = .closeWait ∧ s.queue = [] := by
  have hconserved := hinv.conserved
  rw [State.inHand, hcall, map_some, getD_some, hread, append_nil]
    at hconserved
  have hall : s.returned = s.arrived ↔ s.queue = [] := by
    rw [← hconserved, self_eq_append_right]
  simp only [Faithful, State.return, hread, isEmpty_nil, Bool.or_true, true_imp_iff,
    append_nil, hall]

theorem faithful_of_not_ended (h : s.ended = false) : Faithful s := by
  intro hended
  cases h.symm.trans hended

theorem faithful_step_iff (s : State) (e : Event) (s' : State) (hinv : Inv s) (hs : Faithful s)
    (hstep : step s e = some s') : Faithful s' ↔ Drained s e := by
  have hopen : s.connection ≠ .closeWait → s.ended = false := by
    intro hne
    by_contra hended
    exact hne (hs (by simpa using hended)).1
  rcases step_cases hinv hstep with ⟨rfl, hc, rfl⟩ | ⟨segment, rfl, hc, rfl⟩ | ⟨rfl, hc, rfl⟩ |
    ⟨size, rfl, hcall, hended, rfl⟩ | ⟨contiguous, c, rfl, hcall, -, ⟨hreturn, rfl⟩ |
      ⟨hread, hc, heq⟩⟩
  · exact iff_of_true (faithful_of_not_ended (hopen (by simp [hc]))) trivial
  · exact iff_of_true (faithful_of_not_ended (hopen (by simp [hc]))) trivial
  · exact iff_of_true (faithful_of_not_ended (hopen (by simp [hc]))) trivial
  · exact iff_of_true (faithful_of_not_ended hended) trivial
  · -- the call returns, and with nothing read it reports the end of the stream
    by_cases hread : c.read = []
    · rw [faithful_return_nil_iff hinv hcall hread, Drained, hcall]
      have hclosed := hreturn.resolve_left (not_not.mpr hread)
      simp [hread, hclosed]
    · have hended : (s.return c).ended = false := by
        simp [State.return, not_ended hinv hcall, hread]
      refine iff_of_true (faithful_of_not_ended hended) fun c' hc' hread' => ?_
      rw [hcall] at hc'
      cases hc'
      exact absurd hread' hread
  · -- the call goes on
    have hended := not_ended hinv hcall
    refine iff_of_true ?_ fun _ _ _ => .inl hc
    rcases heq with rfl | ⟨-, rfl⟩
    · exact faithful_of_not_ended hended
    · exact faithful_of_not_ended hended

/-- **When reads lose nothing**, for every order of arrivals and reads. -/
theorem reads_faithful_iff {events : List Event} (hrun : run step init events = some s) :
    Throughout step Faithful init events ↔ Guarded step Drained init events :=
  throughout_iff_guarded_of_inv inv_step faithful_step_iff events inv_init nofun hrun

/-! ## The calls return -/

def Event.isRound : Event → Bool
  | .round _ => true
  | _ => false

/-- The call in progress returns within `n` rounds: it has read something, or there is something to
read, or nothing more will come. -/
def Pending (n : ℕ) (s : State) : Prop :=
  ∀ c, s.call = some c → 0 < n ∧ 0 < c.size ∧
    (c.read ≠ [] ∨ 1 < n ∧ (s.connection = .closeWait ∨ s.queue ≠ []))

/-- A round returns or reads something, and no other event stands in its way. -/
theorem pending_step (n : ℕ) (s : State) (e : Event) (s' : State)
    (h : Inv s ∧ Pending (n + 1) s) (hcalls : s.call ≠ none) (hstep : step s e = some s') :
    Inv s' ∧ Pending (if e.isRound then n else n + 1) s' := by
  obtain ⟨hinv, hpending⟩ := h
  refine ⟨inv_step s e s' hinv hstep, ?_⟩
  rcases step_cases hinv hstep with ⟨rfl, hc, rfl⟩ | ⟨segment, rfl, hc, rfl⟩ | ⟨rfl, hc, rfl⟩ |
    ⟨size, rfl, hcall, hended, rfl⟩ | ⟨contiguous, c, rfl, hcall, hpiece, ⟨-, rfl⟩ |
      ⟨hread, hc, rfl | ⟨hqueue, rfl⟩⟩⟩
  · -- in the handshake nothing is queued
    intro c hcall
    obtain ⟨hn, hsize, hread | ⟨-, hclosed | hqueue⟩⟩ := hpending c hcall
    · exact ⟨hn, hsize, .inl hread⟩
    · cases hc.symm.trans hclosed
    · exact absurd (hinv.handshake hc) hqueue
  · intro c hcall
    obtain ⟨hn, hsize, hread | ⟨htwo, hclosed | hqueue⟩⟩ := hpending c hcall
    · exact ⟨hn, hsize, .inl hread⟩
    · cases hc.symm.trans hclosed
    · exact ⟨hn, hsize, .inr ⟨htwo, .inr (append_ne_nil_of_left_ne_nil hqueue _)⟩⟩
  · intro c hcall
    obtain ⟨hn, hsize, hdata⟩ := hpending c hcall
    exact ⟨hn, hsize, hdata.imp_right fun hdata => ⟨hdata.1, .inl rfl⟩⟩
  · exact absurd hcall hcalls
  · exact fun _ hnone => by cases hnone
  · rintro _ ⟨⟩
    obtain ⟨-, hsize, hne | ⟨hn, hclosed | hqueue⟩⟩ := hpending c hcall
    · exact absurd hread hne
    · cases hc.symm.trans hclosed
    · refine ⟨Nat.lt_of_succ_lt_succ hn, hsize, .inl ?_⟩
      rw [hread, nil_append, Ne, take_eq_nil_iff, not_or]
      have hpos := hpiece hqueue
      exact ⟨by rw [length_nil]; omega, hqueue⟩
  · obtain ⟨-, -, hne | ⟨-, hclosed | hne⟩⟩ := hpending c hcall
    · exact absurd hread hne
    · cases hc.symm.trans hclosed
    · exact absurd hqueue hne

/-- **Reads lose nothing and go on**: after any run all bytes are there, in order, and a call
returns within two rounds, whatever happens between them, if something is queued or the peer has
closed. -/
theorem recv_returns {events : List Event} (hrun : run step init events = some s) :
    s.returned ++ s.inHand ++ s.queue = s.arrived ∧
      ∀ c, s.call = some c → 0 < c.size → s.connection = .closeWait ∨ s.queue ≠ [] →
        ∀ more s', run step s more = some s' → 2 ≤ more.countP Event.isRound →
          ∃ pre post s₁, more = pre ++ post ∧ pre.countP Event.isRound ≤ 2 ∧
            run step s pre = some s₁ ∧ s₁.call = none := by
  have hinv : Inv s := run_invariant inv_step events inv_init hrun
  refine ⟨hinv.conserved, fun c hcall hsize hdata more s' hmore htwo => ?_⟩
  refine @run_reaches _ _ _ _ (fun n s => Inv s ∧ Pending n s) _ (fun s h => ?_) pending_step more
    _ _ _ ⟨hinv, fun c' hc' => ?_⟩ hmore htwo
  · refine Option.eq_none_iff_forall_ne_some.mpr fun c hc => ?_
    exact absurd (h.2 c hc).1 (Nat.lt_irrefl 0)
  · rw [hcall] at hc'
    cases hc'
    exact ⟨by decide, hsize, .inr ⟨by decide, hdata⟩⟩

end

/-- Data is queued, and more arrives between the two rounds. -/
theorem recv_returns_queued :
    ∃ pre post s₁, [.round 3, .arrive [4], .round 1] = pre ++ post ∧
      pre.countP Event.isRound ≤ 2 ∧
      run step ⟨.established, [1, 2, 3], some ⟨16, []⟩, [1, 2, 3], [], false⟩ pre = some s₁ ∧
      s₁.call = none :=
  (@recv_returns _ [.establish, .call 16, .arrive [1, 2, 3]] rfl).2 _ rfl (by decide)
    (.inr (by decide)) [.round 3, .arrive [4], .round 1] _ rfl (by decide)

/-- Data and the FIN arrive, and everything is read before the FIN. -/
theorem read_before_fin :
    Throughout step Faithful init
      [.establish, .call 16, .round 0, .arrive [1, 2, 3], .round 3, .round 0, .fin, .call 16,
        .round 0] := by
  apply (reads_faithful_iff rfl).mpr
  refine .cons trivial rfl (.cons trivial rfl (.cons ?_ rfl (.cons trivial rfl (.cons ?_ rfl
    (.cons ?_ rfl (.cons trivial rfl (.cons trivial rfl (.cons ?_ rfl trivial))))))))
  · exact fun _ _ _ => .inl rfl
  · exact fun _ _ _ => .inl rfl
  · exact fun _ _ _ => .inl rfl
  · exact fun _ _ _ => .inr ⟨rfl, rfl⟩

/-- A FIN before the read, or a read before the connection is there, gives `Ok(0)`. -/
theorem queued_bytes_lost :
    (run step init [.establish, .arrive [1, 2, 3], .fin, .call 16, .round 3]).map
        (fun s => (s.ended, s.returned, s.queue)) = some (true, [], [1, 2, 3]) ∧
    (run step init [.call 16, .round 0, .establish, .arrive [1, 2, 3]]).map
        (fun s => (s.ended, s.returned, s.queue)) = some (true, [], [1, 2, 3]) := by
  decide

end AlloyAgent.SocketRecv
