import Mathlib.Data.List.Induction
import AlloyAgent.HashTable
import AlloyAgent.Transition

/-!
# The provider circuit breaker

After an error a provider is in cooldown. Requests are rejected, except for probes that find out
whether the provider has recovered: there should be one at a time, and at least
`probe_interval_secs` between two of them.

* the breaker: `check`, `getState` and the four calls that record a result;
* runs of calls for requests that overlap, with a log of the answers (`stepBreaker`);
* when one probe is out at a time (`probes_exclusive_iff`): `check` does not note that it has
  admitted a probe, so this is left to the circuit (`check_ne_allowProbe_iff`).
-/

namespace AlloyAgent.ProviderCooldown

open List Transition

def fromSecs (secs : ℕ) : ℕ := secs * 1000000000

def asSecs (duration : ℕ) : ℕ := duration / 1000000000

/-- The effect of a floating-point multiplier: base and exponent to seconds. -/
abbrev Multiplier := ℕ → ℕ → ℕ

structure CooldownConfig where
  baseCooldownSecs : ℕ
  maxCooldownSecs : ℕ
  backoffMultiplier : Multiplier
  maxExponent : ℕ
  billingBaseCooldownSecs : ℕ
  billingMaxCooldownSecs : ℕ
  billingMultiplier : Multiplier
  failureWindowSecs : ℕ
  probeEnabled : Bool
  probeIntervalSecs : ℕ

inductive CircuitState where
  | closed
  | opened
  | halfOpen
  deriving DecidableEq, Repr

/-- Tracks error state for a single provider. -/
structure ProviderState where
  errorCount : ℕ
  isBilling : Bool
  cooldownStart : Option ℕ
  cooldownDuration : ℕ
  lastProbe : Option ℕ
  totalErrorsInWindow : ℕ
  windowStart : Option ℕ
  deriving DecidableEq, Repr

def ProviderState.new : ProviderState := ⟨0, false, none, 0, none, 0, none⟩

inductive CooldownVerdict where
  | allow
  | allowProbe
  | reject (reason : String) (retryAfterSecs : ℕ)
  deriving DecidableEq, Repr

/-- `saturating_add(1)` of a 32-bit counter. -/
def saturatingSucc (n : ℕ) : ℕ := min (n + 1) (2 ^ 32 - 1)

/-- Cooldown duration based on error count and type. -/
def calculateCooldown (config : CooldownConfig) (errorCount : ℕ) (isBilling : Bool) : ℕ :=
  if isBilling then
    let exponent := min (errorCount - 1) 10
    let secs := config.billingMultiplier config.billingBaseCooldownSecs exponent
    fromSecs (min secs config.billingMaxCooldownSecs)
  else
    let exponent := min (errorCount - 1) config.maxExponent
    let secs := config.backoffMultiplier config.baseCooldownSecs exponent
    fromSecs (min secs config.maxCooldownSecs)

def probeOk (config : CooldownConfig) (st : ProviderState) (now : ℕ) : Bool :=
  match st.lastProbe with
  | some last => fromSecs config.probeIntervalSecs ≤ now - last
  | none => true

def checkState (config : CooldownConfig) (st : ProviderState) (now : ℕ) : CooldownVerdict :=
  match st.cooldownStart with
  | none => .allow
  | some start =>
    let elapsed := now - start
    if elapsed < st.cooldownDuration then
      if config.probeEnabled && probeOk config st now then .allowProbe
      else
        .reject
          (if st.isBilling then s!"billing cooldown ({st.errorCount} errors)"
          else s!"error cooldown ({st.errorCount} errors)")
          (asSecs (st.cooldownDuration - elapsed))
    else .allowProbe

def check (config : CooldownConfig) (states : Table String ProviderState) (provider : String)
    (now : ℕ) : CooldownVerdict :=
  match states.lookup provider with
  | none => .allow
  | some st => checkState config st now

def getState (states : Table String ProviderState) (provider : String) (now : ℕ) :
    CircuitState :=
  match states.lookup provider with
  | none => .closed
  | some st =>
    match st.cooldownStart with
    | none => .closed
    | some start =>
      if now - start < st.cooldownDuration then .opened
      else if 0 < st.errorCount then .halfOpen
      else .closed

/-- A successful request closes the circuit. -/
def recordSuccess (states : Table String ProviderState) (provider : String) :
    Table String ProviderState :=
  match states.lookup provider with
  | none => states
  | some st => states.insert provider { st with
      errorCount := 0
      isBilling := false
      cooldownStart := none
      cooldownDuration := 0
      lastProbe := none }

/-- The failure window: reset the counter if the window has elapsed. -/
def manageWindow (config : CooldownConfig) (st : ProviderState) (now : ℕ) : ProviderState :=
  match st.windowStart with
  | some ws =>
    if fromSecs config.failureWindowSecs ≤ now - ws then
      { st with totalErrorsInWindow := 0, windowStart := some now }
    else st
  | none => { st with windowStart := some now }

/-- A failed request increments the error count. -/
def recordFailure (config : CooldownConfig) (states : Table String ProviderState)
    (provider : String) (isBilling : Bool) (now : ℕ) : Table String ProviderState :=
  let st := manageWindow config ((states.lookup provider).getD .new) now
  let errorCount := saturatingSucc st.errorCount
  states.insert provider { st with
    errorCount := errorCount
    totalErrorsInWindow := saturatingSucc st.totalErrorsInWindow
    isBilling := isBilling
    cooldownStart := some now
    cooldownDuration := calculateCooldown config errorCount isBilling }

/-- Record the result of a probe request. -/
def recordProbeResult (config : CooldownConfig) (states : Table String ProviderState)
    (provider : String) (success : Bool) (now : ℕ) : Table String ProviderState :=
  if success then recordSuccess states provider
  else
    match states.lookup provider with
    | none => states
    | some st =>
      let errorCount := saturatingSucc st.errorCount
      states.insert provider { st with
        lastProbe := some now
        errorCount := errorCount
        cooldownStart := some now
        cooldownDuration := calculateCooldown config errorCount st.isBilling }

inductive Call where
  | check
  | recordSuccess
  | recordFailure (isBilling : Bool)
  | recordProbeResult (success : Bool)

/-- A call for a provider: a request checks, and later records how it went. -/
structure Event where
  request : ℕ
  provider : String
  now : ℕ
  call : Call

/-- The answer of a `check`, with the state of the circuit, or that a result was recorded. -/
inductive Obs where
  | checked (request : ℕ) (provider : String) (now : ℕ) (circuit : CircuitState)
      (verdict : CooldownVerdict)
  | recorded (request : ℕ) (provider : String)
  deriving DecidableEq

structure Breaker where
  states : Table String ProviderState
  now : ℕ
  log : List Obs

def new : Breaker := ⟨∅, 0, []⟩

def record (config : CooldownConfig) (states : Table String ProviderState) (provider : String)
    (now : ℕ) : Call → Table String ProviderState
  | .check => states
  | .recordSuccess => recordSuccess states provider
  | .recordFailure isBilling => recordFailure config states provider isBilling now
  | .recordProbeResult success => recordProbeResult config states provider success now

def observe (config : CooldownConfig) (states : Table String ProviderState) (e : Event) : Obs :=
  match e.call with
  | .check =>
    .checked e.request e.provider e.now (getState states e.provider e.now)
      (check config states e.provider e.now)
  | _ => .recorded e.request e.provider

/-- One call; the clock does not go backwards. -/
def stepBreaker (config : CooldownConfig) (b : Breaker) (e : Event) : Option Breaker :=
  if e.now < b.now then none
  else
    some ⟨record config b.states e.provider e.now e.call, e.now,
      b.log ++ [observe config b.states e]⟩

def probesOut (provider : String) : List Obs → List (ℕ × ℕ) :=
  List.foldl (fun out o =>
    match o with
    | .checked request q now _ .allowProbe => if q = provider then (request, now) :: out else out
    | .checked _ _ _ _ _ => out
    | .recorded request q => if q = provider then out.filter (·.1 ≠ request) else out) []

/-- When a probe is admitted, the others were admitted at least the interval before. -/
def Exclusive (interval : ℕ) (log : List Obs) : Prop :=
  ∀ before request provider now circuit after,
    log = before ++ .checked request provider now circuit .allowProbe :: after →
    ∀ probe ∈ probesOut provider before, probe.2 + interval ≤ now

/-- Inside a cooldown, what is not a probe is rejected. -/
def OthersRejected (log : List Obs) : Prop :=
  ∀ request provider now verdict, .checked request provider now .opened verdict ∈ log →
    verdict ≠ .allowProbe → ∃ reason secs, verdict = .reject reason secs

/-- When the last failed probe of a provider was reported. -/
def lastProbe (states : Table String ProviderState) (provider : String) : Option ℕ :=
  (states.lookup provider).bind ProviderState.lastProbe

/-- A `check` while a probe is out that was admitted less than the interval ago finds the circuit
closed, or finds it open and no probe is due: probing is off, or one was reported lately. -/
def OneOut (config : CooldownConfig) (b : Breaker) (e : Event) : Prop :=
  e.call = .check →
    (∃ probe ∈ probesOut e.provider b.log, e.now < probe.2 + fromSecs config.probeIntervalSecs) →
    getState b.states e.provider e.now = .closed ∨
      getState b.states e.provider e.now = .opened ∧ (config.probeEnabled = false ∨
        ∃ last, lastProbe b.states e.provider = some last ∧
          e.now - last < fromSecs config.probeIntervalSecs)

/-! ## One probe at a time -/

variable {log : List Obs}

theorem append_singleton_cases {before after : List Obs} {o o' : Obs}
    (h : log ++ [o] = before ++ o' :: after) :
    (log = before ∧ o = o' ∧ after = []) ∨ ∃ rest, after = rest ++ [o] ∧
      log = before ++ o' :: rest := by
  rcases eq_nil_or_concat after with rfl | ⟨rest, last, rfl⟩
  · obtain ⟨rfl, ho⟩ := append_inj' h rfl
    exact .inl ⟨rfl, (List.cons.inj ho).1, rfl⟩
  · rw [concat_eq_append, ← cons_append, ← append_assoc] at h
    obtain ⟨rfl, ho⟩ := append_inj' h rfl
    exact .inr ⟨rest, by rw [(List.cons.inj ho).1, concat_eq_append], rfl⟩

theorem exclusive_concat {interval : ℕ} {o : Obs} :
    Exclusive interval (log ++ [o]) ↔ Exclusive interval log ∧
      ∀ request provider now circuit, o = .checked request provider now circuit .allowProbe →
        ∀ probe ∈ probesOut provider log, probe.2 + interval ≤ now := by
  refine ⟨fun h => ⟨?_, ?_⟩, ?_⟩
  · rintro before request provider now circuit after rfl
    exact h before request provider now circuit (after ++ [o]) (by simp)
  · rintro request provider now circuit rfl
    exact h log request provider now circuit [] rfl
  · rintro ⟨h, ho⟩ before request provider now circuit after heq
    rcases append_singleton_cases heq with ⟨rfl, rfl, -⟩ | ⟨rest, -, heq'⟩
    · exact ho request provider now circuit rfl
    · exact h before request provider now circuit rest heq'

variable {config : CooldownConfig} {states : Table String ProviderState} {provider : String}
  {now : ℕ}

/-- A `check` inside the cooldown is admitted as a probe or rejected. -/
theorem check_of_opened (h : getState states provider now = .opened)
    (hne : check config states provider now ≠ .allowProbe) :
    ∃ reason secs, check config states provider now = .reject reason secs := by
  rw [getState] at h
  rw [check] at hne ⊢
  cases hst : states.lookup provider with
  | none => simp [hst] at h
  | some st =>
    simp only [hst, checkState] at h hne ⊢
    cases hstart : st.cooldownStart with
    | none => simp [hstart] at h
    | some start =>
      simp only [hstart] at h hne ⊢
      split at h
      · rename_i hin
        rw [if_pos hin] at hne ⊢
        split at hne
        · exact absurd rfl hne
        · rename_i hprobe
          rw [if_neg hprobe]
          exact ⟨_, _, rfl⟩
      · split at h <;> cases h

/-- Only a `check` is observed as one. -/
theorem observe_eq_checked
    (h : observe config states e = .checked request provider now circuit verdict) :
    e.call = .check ∧ e.provider = provider ∧ e.now = now ∧
      getState states provider now = circuit ∧ check config states provider now = verdict := by
  rw [observe] at h
  split at h
  · rename_i hcall
    obtain ⟨-, rfl, rfl, hcircuit, hverdict⟩ := Obs.checked.inj h
    exact ⟨hcall, rfl, rfl, hcircuit, hverdict⟩
  · cases h

theorem OthersRejected.append (h : OthersRejected log) (e : Event) :
    OthersRejected (log ++ [observe config states e]) := by
  intro request provider now verdict hmem hne
  rw [mem_append, mem_singleton] at hmem
  rcases hmem with hmem | hmem
  · exact h request provider now verdict hmem hne
  · obtain ⟨-, -, -, hopened, rfl⟩ := observe_eq_checked hmem.symm
    exact check_of_opened hopened hne

theorem stepBreaker_eq_some (h : stepBreaker config b e = some b') :
    b.now ≤ e.now ∧ b' = ⟨record config b.states e.provider e.now e.call, e.now,
      b.log ++ [observe config b.states e]⟩ := by
  rw [stepBreaker] at h
  split_ifs at h with hnow
  exact ⟨Nat.le_of_not_lt hnow, (Option.some.inj h).symm⟩

/-! ### A cooldown start means errors -/

/-- There is a cooldown start exactly if there are errors. -/
def ProviderState.Marked (st : ProviderState) : Prop :=
  st.cooldownStart.isSome = true ↔ 0 < st.errorCount

def Marked (states : Table String ProviderState) : Prop :=
  ∀ provider st, states.lookup provider = some st → st.Marked

theorem ProviderState.marked_of_start {st : ProviderState} (hstart : st.cooldownStart = some start)
    (hcount : 0 < st.errorCount) : st.Marked :=
  iff_of_true (by rw [hstart]; rfl) hcount

theorem saturatingSucc_pos (n : ℕ) : 0 < saturatingSucc n := by
  rw [saturatingSucc]
  omega

section

variable (h : Marked states)
include h

theorem Marked.insert (hst : ProviderState.Marked st) : Marked (states.insert key st) :=
  Table.forall_lookup_insert hst h

theorem marked_recordSuccess (provider : String) : Marked (recordSuccess states provider) := by
  rw [recordSuccess]
  split
  · exact h
  · apply h.insert
    exact iff_of_false Bool.false_ne_true (lt_irrefl 0)

theorem marked_recordFailure (config : CooldownConfig) (provider : String) (isBilling : Bool)
    (now : ℕ) : Marked (recordFailure config states provider isBilling now) := by
  rw [recordFailure]
  apply h.insert
  exact ProviderState.marked_of_start rfl (saturatingSucc_pos _)

theorem marked_recordProbeResult (config : CooldownConfig) (provider : String) (success : Bool)
    (now : ℕ) : Marked (recordProbeResult config states provider success now) := by
  rw [recordProbeResult]
  split
  · exact marked_recordSuccess h provider
  · split
    · exact h
    · apply h.insert
      exact ProviderState.marked_of_start rfl (saturatingSucc_pos _)

theorem marked_record (call : Call) : Marked (record config states provider now call) := by
  cases call with
  | check => exact h
  | recordSuccess => exact marked_recordSuccess h provider
  | recordFailure isBilling => exact marked_recordFailure h config provider isBilling now
  | recordProbeResult success => exact marked_recordProbeResult h config provider success now

end

/-- **What `check` refuses**, in terms of the circuit that `get_state` reports. -/
theorem check_ne_allowProbe_iff (h : Marked states) :
    check config states provider now ≠ .allowProbe ↔
      getState states provider now = .closed ∨
        getState states provider now = .opened ∧ (config.probeEnabled = false ∨
          ∃ last, lastProbe states provider = some last ∧
            now - last < fromSecs config.probeIntervalSecs) := by
  rw [check, getState, lastProbe]
  cases hst : states.lookup provider with
  | none => simp
  | some st =>
    simp only [checkState, Option.bind_some]
    cases hstart : st.cooldownStart with
    | none => simp
    | some start =>
      have hcount : 0 < st.errorCount := (h provider st hst).mp (by rw [hstart]; rfl)
      dsimp only
      by_cases hin : now - start < st.cooldownDuration
      · cases hlast : st.lastProbe with
        | none => cases config.probeEnabled <;> simp [hin, probeOk, hlast]
        | some last =>
          cases config.probeEnabled <;> simp [hin, probeOk, hlast]
      · simp [hin, hcount]

theorem exclusive_step_iff (b : Breaker) (e : Event) (b' : Breaker) (hmarked : Marked b.states)
    (h : Exclusive (fromSecs config.probeIntervalSecs) b.log ∧ OthersRejected b.log)
    (hstep : stepBreaker config b e = some b') :
    Exclusive (fromSecs config.probeIntervalSecs) b'.log ∧ OthersRejected b'.log ↔
      OneOut config b e := by
  obtain ⟨-, rfl⟩ := stepBreaker_eq_some hstep
  rw [and_iff_left (h.2.append e), exclusive_concat, and_iff_right h.1]
  refine ⟨fun hprobe hcall hyoung => ?_, fun hone request provider now circuit ho => ?_⟩
  · rw [← check_ne_allowProbe_iff hmarked]
    intro hadmitted
    obtain ⟨probe, hmem, hlt⟩ := hyoung
    have ho : observe config b.states e = .checked e.request e.provider e.now
        (getState b.states e.provider e.now) .allowProbe := by
      rw [observe, hcall, ← hadmitted]
    exact absurd (hprobe _ _ _ _ ho probe hmem) (Nat.not_le_of_lt hlt)
  · obtain ⟨hcall, rfl, rfl, -, hadmitted⟩ := observe_eq_checked ho
    intro probe hmem
    by_contra hlt
    have hrefused := hone hcall ⟨probe, hmem, Nat.lt_of_not_le hlt⟩
    exact (check_ne_allowProbe_iff hmarked).mpr hrefused hadmitted

def CooldownConfig.default : CooldownConfig where
  baseCooldownSecs := 60
  maxCooldownSecs := 3600
  backoffMultiplier := fun base exponent => base * 5 ^ exponent
  maxExponent := 3
  billingBaseCooldownSecs := 18000
  billingMaxCooldownSecs := 86400
  billingMultiplier := fun base exponent => base * 2 ^ exponent
  failureWindowSecs := 86400
  probeEnabled := true
  probeIntervalSecs := 30

def overlapping : List Event :=
  [⟨1, "openai", fromSecs 1, .check⟩,
    ⟨1, "openai", fromSecs 2, .recordFailure false⟩,
    ⟨2, "openai", fromSecs 3, .check⟩,
    ⟨3, "openai", fromSecs 3, .check⟩]

def waiting : List Event :=
  [⟨1, "openai", fromSecs 1, .check⟩,
    ⟨1, "openai", fromSecs 2, .recordFailure false⟩,
    ⟨2, "openai", fromSecs 3, .check⟩,
    ⟨2, "openai", fromSecs 4, .recordFailure false⟩,
    ⟨3, "openai", fromSecs 5, .check⟩,
    ⟨3, "openai", fromSecs 6, .recordSuccess⟩]

end AlloyAgent.ProviderCooldown
