import AlloyAgent.ProviderCooldown

/-!
# Three views of the circuit

The state of a provider's circuit is not stored. `check`, `get_state` and `snapshot` each derive it
again from the fields of the entry, and not by the same conditions.

* `clearExpired_of_marked`: the operation that clears circuits never finds one;
* `circuit_views_agree`: in every run the three agree.
-/

namespace AlloyAgent.ProviderCooldown

open Transition

/-! ## The operations that are not part of a request -/

structure ProviderSnapshot where
  provider : String
  state : CircuitState
  errorCount : ℕ
  isBilling : Bool
  cooldownRemainingSecs : Option ℕ
  deriving DecidableEq, Repr

def snapshotEntry (now : ℕ) (entry : String × ProviderState) : ProviderSnapshot :=
  let state := entry.2
  { provider := entry.1
    state :=
      match state.cooldownStart with
      | some start =>
        let elapsed := now - start
        if elapsed < state.cooldownDuration then .opened
        else if 0 < state.errorCount then .halfOpen
        else .closed
      | none => .closed
    errorCount := state.errorCount
    isBilling := state.isBilling
    cooldownRemainingSecs := state.cooldownStart.bind fun start =>
      let elapsed := now - start
      if elapsed < state.cooldownDuration then some (asSecs (state.cooldownDuration - elapsed))
      else none }

def snapshot (order : IterOrder (String × ProviderState)) (states : Table String ProviderState)
    (now : ℕ) : List ProviderSnapshot :=
  (order.arrange states.pairs).map (snapshotEntry now)

def expired (now : ℕ) (state : ProviderState) : Bool :=
  match state.cooldownStart with
  | some start => decide (state.cooldownDuration ≤ now - start) && state.errorCount == 0
  | none => false

/-- Clear expired cooldowns. -/
def clearExpired (order : IterOrder (String × ProviderState))
    (states : Table String ProviderState) (now : ℕ) : Table String ProviderState :=
  let toRemove := ((order.arrange states.pairs).filter fun e => expired now e.2).map Prod.fst
  toRemove.foldl (fun states key => states.erase key) states

def forceReset (states : Table String ProviderState) (provider : String) :
    Table String ProviderState :=
  states.erase provider

def profileKey (provider profile : String) : String := s!"{provider}::{profile}"

/-- Advance to the next profile after a failure. -/
def advanceProfile (config : CooldownConfig) (states : Table String ProviderState)
    (provider failedProfile : String) (isBilling : Bool) (now : ℕ) :
    Table String ProviderState :=
  let key := profileKey provider failedProfile
  let st := (states.lookup key).getD .new
  let errorCount := saturatingSucc st.errorCount
  states.insert key { st with
    errorCount := errorCount
    isBilling := isBilling
    cooldownStart := some now
    cooldownDuration := calculateCooldown config errorCount isBilling }

inductive Operation where
  | recordFailure (provider : String) (isBilling : Bool)
  | recordSuccess (provider : String)
  | recordProbeResult (provider : String) (success : Bool)
  | advanceProfile (provider failedProfile : String) (isBilling : Bool)
  | clearExpired (order : IterOrder (String × ProviderState))
  | forceReset (provider : String)

def perform (config : CooldownConfig) (states : Table String ProviderState) (now : ℕ) :
    Operation → Table String ProviderState
  | .recordFailure provider isBilling => recordFailure config states provider isBilling now
  | .recordSuccess provider => recordSuccess states provider
  | .recordProbeResult provider success => recordProbeResult config states provider success now
  | .advanceProfile provider failedProfile isBilling =>
    advanceProfile config states provider failedProfile isBilling now
  | .clearExpired order => clearExpired order states now
  | .forceReset provider => forceReset states provider

structure Circuits where
  states : Table String ProviderState
  now : ℕ

def Circuits.new : Circuits := ⟨∅, 0⟩

/-- One operation at a time; the clock does not go backwards. -/
def stepCircuits (config : CooldownConfig) (c : Circuits) (e : ℕ × Operation) :
    Option Circuits :=
  if e.1 < c.now then none else some ⟨perform config c.states e.1 e.2, e.1⟩

/-! ## Nothing expires -/

variable {st : ProviderState} {states : Table String ProviderState}

section

variable (h : Marked states)
include h

theorem Marked.erase (key : String) : Marked (states.erase key) :=
  fun provider st hlookup => h provider st (Table.lookup_of_lookup_erase hlookup)

theorem marked_advanceProfile (config : CooldownConfig) (provider failedProfile : String)
    (isBilling : Bool) (now : ℕ) :
    Marked (advanceProfile config states provider failedProfile isBilling now) := by
  rw [advanceProfile]
  apply h.insert
  exact ProviderState.marked_of_start rfl (saturatingSucc_pos _)

end

theorem ProviderState.Marked.not_expired (h : st.Marked) (now : ℕ) : expired now st = false := by
  rw [expired]
  cases hstart : st.cooldownStart with
  | none => rfl
  | some start =>
    have hcount : 0 < st.errorCount := h.mp (by rw [hstart]; rfl)
    have hne : (st.errorCount == 0) = false := by simp [hcount.ne']
    dsimp only
    rw [hne, Bool.and_false]

/-- **Nothing expires.** -/
theorem clearExpired_of_marked (h : Marked states) (order : IterOrder (String × ProviderState))
    (now : ℕ) : clearExpired order states now = states := by
  have hnone : (order.arrange states.pairs).filter (fun e => expired now e.2) = [] := by
    rw [List.filter_eq_nil_iff]
    intro e he
    rw [IterOrder.mem_arrange] at he
    rw [(h e.1 e.2 (Table.mem_pairs.mp he)).not_expired now]
    exact Bool.false_ne_true
  rw [clearExpired, hnone]
  rfl

theorem marked_perform (h : Marked states) (config : CooldownConfig) (now : ℕ) (op : Operation) :
    Marked (perform config states now op) := by
  cases op with
  | recordFailure provider isBilling =>
    exact marked_recordFailure h config provider isBilling now
  | recordSuccess provider => exact marked_recordSuccess h provider
  | recordProbeResult provider success =>
    exact marked_recordProbeResult h config provider success now
  | advanceProfile provider failedProfile isBilling =>
    exact marked_advanceProfile h config provider failedProfile isBilling now
  | clearExpired order =>
    rw [perform, clearExpired_of_marked h]
    exact h
  | forceReset provider => exact h.erase provider

variable {config : CooldownConfig}

theorem stepCircuits_eq_some (h : stepCircuits config c e = some c') :
    c.now ≤ e.1 ∧ c' = ⟨perform config c.states e.1 e.2, e.1⟩ := by
  rw [stepCircuits] at h
  split_ifs at h with hnow
  exact ⟨Nat.le_of_not_lt hnow, (Option.some.inj h).symm⟩

theorem marked_step (c : Circuits) (e : ℕ × Operation) (c' : Circuits) (h : Marked c.states)
    (hstep : stepCircuits config c e = some c') : Marked c'.states := by
  obtain ⟨-, rfl⟩ := stepCircuits_eq_some hstep
  exact marked_perform h config e.1 e.2

theorem marked_of_run (hrun : run (stepCircuits config) .new es = some c) : Marked c.states := by
  have hnew : Marked Circuits.new.states := by
    intro provider st hlookup
    cases hlookup
  exact run_invariant marked_step es hnew hrun

/-! ## The three views -/

def ProviderState.circuit (st : ProviderState) (now : ℕ) : CircuitState :=
  match st.cooldownStart with
  | none => .closed
  | some start =>
    if now - start < st.cooldownDuration then .opened
    else if 0 < st.errorCount then .halfOpen
    else .closed

theorem getState_eq (states : Table String ProviderState) (provider : String) (now : ℕ) :
    getState states provider now =
      ((states.lookup provider).map fun st => st.circuit now).getD .closed := by
  rw [getState]
  cases states.lookup provider <;> rfl

theorem snapshotEntry_state (now : ℕ) (entry : String × ProviderState) :
    (snapshotEntry now entry).state = entry.2.circuit now := by
  rw [snapshotEntry, ProviderState.circuit]
  cases entry.2.cooldownStart <;> rfl

variable {now : ℕ}

theorem checkState_eq_allow_iff : checkState config st now = .allow ↔ st.cooldownStart = none := by
  rw [checkState]
  cases hstart : st.cooldownStart with
  | none => simp
  | some start =>
    dsimp only
    split_ifs <;> simp

theorem ProviderState.Marked.circuit_eq_closed_iff (h : st.Marked) (now : ℕ) :
    st.circuit now = .closed ↔ st.cooldownStart = none := by
  rw [circuit]
  cases hstart : st.cooldownStart with
  | none => simp
  | some start =>
    have hcount : 0 < st.errorCount := h.mp (by rw [hstart]; rfl)
    dsimp only
    rw [if_pos hcount]
    split_ifs <;> simp

theorem circuit_of_reject (h : checkState config st now = .reject reason secs) :
    st.circuit now = .opened := by
  rw [checkState] at h
  rw [ProviderState.circuit]
  cases hstart : st.cooldownStart with
  | none => simp [hstart] at h
  | some start =>
    simp only [hstart] at h ⊢
    by_cases hin : now - start < st.cooldownDuration
    · rw [if_pos hin]
    · rw [if_neg hin] at h
      cases h

theorem mem_snapshot :
    s ∈ snapshot order states now ↔
      ∃ st, states.lookup s.provider = some st ∧ snapshotEntry now (s.provider, st) = s := by
  rw [snapshot, List.mem_map]
  constructor
  · rintro ⟨⟨provider, st⟩, hmem, rfl⟩
    rw [IterOrder.mem_arrange, Table.mem_pairs] at hmem
    exact ⟨st, hmem, rfl⟩
  · rintro ⟨st, hlookup, hs⟩
    refine ⟨(s.provider, st), ?_, hs⟩
    rw [IterOrder.mem_arrange, Table.mem_pairs]
    exact hlookup

/-- **The views agree**, after every sequence of operations at non-decreasing times. -/
theorem circuit_views_agree (config : CooldownConfig) (es : List (ℕ × Operation)) (c : Circuits)
    (hrun : run (stepCircuits config) .new es = some c) (provider : String) :
    (∀ st, c.states.lookup provider = some st →
      (st.cooldownStart.isSome = true ↔ 0 < st.errorCount)) ∧
    ∀ now,
      (check config c.states provider now = .allow ↔
        getState c.states provider now = .closed) ∧
      (∀ reason secs, check config c.states provider now = .reject reason secs →
        getState c.states provider now = .opened) ∧
      ∀ order,
        (∀ s ∈ snapshot order c.states now, s.provider = provider →
          s.state = getState c.states provider now) ∧
        ((∀ s ∈ snapshot order c.states now, s.provider ≠ provider) →
          getState c.states provider now = .closed) := by
  have hmarked := marked_of_run hrun
  refine ⟨hmarked provider, fun now => ⟨?_, ?_, fun order => ⟨?_, ?_⟩⟩⟩
  · rw [check, getState_eq]
    cases hst : c.states.lookup provider with
    | none => simp
    | some st =>
      have hclosed := (hmarked provider st hst).circuit_eq_closed_iff now
      exact checkState_eq_allow_iff.trans hclosed.symm
  · intro reason secs hreject
    rw [check] at hreject
    rw [getState_eq]
    cases hst : c.states.lookup provider with
    | none => simp [hst] at hreject
    | some st =>
      simp only [hst] at hreject
      exact circuit_of_reject hreject
  · rintro s hs rfl
    obtain ⟨st, hst, heq⟩ := mem_snapshot.mp hs
    rw [getState_eq, hst, ← heq, snapshotEntry_state]
    rfl
  · intro habsent
    rw [getState_eq]
    cases hst : c.states.lookup provider with
    | none => rfl
    | some st =>
      refine absurd rfl (habsent (snapshotEntry now (provider, st)) ?_)
      exact mem_snapshot.mpr ⟨st, hst, rfl⟩

def failingTwice : List (ℕ × Operation) :=
  [(fromSecs 1, .recordFailure "openai" false),
    (fromSecs 2, .advanceProfile "openai" "primary" true),
    (fromSecs 3, .recordProbeResult "openai" false),
    (fromSecs 4, .clearExpired (.stored _)),
    (fromSecs 5, .forceReset "groq")]

theorem failingTwice_views_agree :
    ∃ c, run (stepCircuits .default) .new failingTwice = some c ∧
      check .default c.states "openai" (fromSecs 7) =
        .reject "error cooldown (2 errors)" 296 ∧
      getState c.states "openai" (fromSecs 7) = .opened := by
  refine ⟨_, rfl, by decide +kernel, ?_⟩
  refine ((circuit_views_agree .default failingTwice _ rfl "openai").2 (fromSecs 7)).2.1
    "error cooldown (2 errors)" 296 ?_
  decide +kernel

end AlloyAgent.ProviderCooldown
