import Mathlib.Data.Finset.Insert
import AlloyAgent.LlmStream
import AlloyAgent.LowerCase
import AlloyAgent.PingPong
import AlloyAgent.Transition

/-!
# The loop guard

`openfang-runtime/src/loop_guard.rs`: the agent loop asks the guard about every tool call, and
reports the result of every call that was made.

* `check`, `recordOutcome`: the code; `judge`: a verdict with its reason;
* `Judged`: what one check does, from which all else follows.
-/

namespace AlloyAgent

open Option RustStr Transition

structure LoopGuardConfig where
  warnThreshold : ℕ := 3
  blockThreshold : ℕ := 5
  globalCircuitBreaker : ℕ := 30
  pollMultiplier : ℕ := 3
  outcomeWarnThreshold : ℕ := 2
  outcomeBlockThreshold : ℕ := 3
  pingPongMinRepeats : ℕ := 3
  maxWarningsPerCall : ℕ := 3

/-- Tracks tool calls within a single agent loop. -/
structure LoopGuard where
  config : LoopGuardConfig
  callCounts : Table String ℕ
  totalCalls : ℕ
  outcomeCounts : Table String ℕ
  /-- call hashes that are blocked due to repeated identical outcomes -/
  blockedOutcomes : Finset String
  /-- recent tool call hashes (the last `historySize`) -/
  recentCalls : List String
  warningsEmitted : Table String ℕ
  pollCounts : Table String ℕ
  blockedCalls : ℕ
  hashToTool : Table String String

namespace LoopGuard

def new (config : LoopGuardConfig) : LoopGuard :=
  { config, callCounts := ∅, totalCalls := 0, outcomeCounts := ∅, blockedOutcomes := ∅,
    recentCalls := [], warningsEmitted := ∅, pollCounts := ∅, blockedCalls := 0, hashToTool := ∅ }

def historySize : ℕ := 30

/-- Tools that are expected to be polled repeatedly. -/
def pollTools : List String := ["shell_exec"]

def backoffScheduleMs : List ℕ := [5000, 10000, 30000, 60000]

structure Env where
  sha256Hex : String → String
  /-- `serde_json::to_string`, or the empty text if it fails -/
  toJson : Json → String
  /-- for `to_lowercase` -/
  tables : CaseTables

def computeHash (env : Env) (toolName : String) (params : Json) : String :=
  env.sha256Hex (toolName ++ "|" ++ env.toJson params)

/-- The hash of the tool name, parameters and result, which is truncated to 1000 bytes. -/
def computeOutcomeHash (env : Env) (toolName : String) (params : Json) (result : String) :
    String :=
  env.sha256Hex (toolName ++ "|" ++ env.toJson params ++ "|" ++ safeTruncateStr result 1000)

def pollWords : List String :=
  ["status", "poll", "wait", "watch", "tail", "ps ", "jobs", "pgrep", "docker ps", "kubectl get"]

/-- Check if a tool call looks like a polling operation. -/
def isPollCall (env : Env) (toolName : String) (params : Json) : Bool :=
  let hasWord (words : List String) (text : String) : Bool :=
    let lower := env.tables.toLowercase text.toList
    words.any fun word => RustStr.contains lower word.toList
  -- known poll tools with short commands
  (pollTools.contains toolName &&
    match (params.get? "command").bind Json.asStr? with
    | some cmd => decide (cmd.utf8ByteSize < 50) && hasWord pollWords cmd
    | none => false) ||
  -- generic poll detection via params keywords
  hasWord ["status", "poll", "wait"] (env.toJson params)

/-- A `u32`, unless it overflows. -/
def u32 (n : ℕ) : Option ℕ := if n < 2 ^ 32 then some n else none

/-- `entry(key).or_insert(0)`, and then add one: the new count, and the table. -/
def bump (counts : Table String ℕ) (key : String) : Option (ℕ × Table String ℕ) := do
  let count ← u32 ((counts.lookup key).getD 0 + 1)
  return (count, counts.insert key count)

def pingPongMessage (hashToTool : Table String String) (pattern : List String) : String :=
  match pattern.map fun hash => (hashToTool.lookup hash).getD "unknown" with
  | [toolA, toolB] =>
    s!"Ping-pong detected: tools '{toolA}' and '{toolB}' are alternating " ++
      "repeatedly. Break the cycle by trying a different approach."
  | [toolA, toolB, toolC] =>
    s!"Ping-pong detected: tools '{toolA}', '{toolB}', '{toolC}' are cycling " ++
      "repeatedly. Break the cycle by trying a different approach."
  | _ => ""

/-- Detect ping-pong patterns (A-B-A-B or A-B-C-A-B-C) in recent call history. -/
def detectPingPong (guard : LoopGuard) : Option (Option String) :=
  (PingPong.detectPattern guard.recentCalls).map fun found =>
    found.map (pingPongMessage guard.hashToTool)

inductive Decision where
  | circuitBreak
  | outcomeBlock
  | countBlock (count : ℕ)
  | warningsExhausted (count : ℕ)
  | warn (count : ℕ)
  | pingPongBlock (msg : String)
  | pingPongWarn (msg : String)
  | allow

def Decision.verdict (config : LoopGuardConfig) (toolName : String) : Decision → LoopGuardVerdict
  | circuitBreak => .circuitBreak
      (s!"Circuit breaker: exceeded {config.globalCircuitBreaker} total tool calls in this " ++
        "loop. The agent appears to be stuck.")
  | outcomeBlock => .block
      (s!"Blocked: tool '{toolName}' is returning identical results repeatedly. " ++
        "The current approach is not working — try something different.")
  | countBlock count => .block
      (s!"Blocked: tool '{toolName}' called {count} times with identical parameters. " ++
        "Try a different approach or different parameters.")
  | warningsExhausted count => .block
      (s!"Blocked: tool '{toolName}' called {count} times with identical parameters " ++
        "(warnings exhausted). Try a different approach.")
  | warn count => .warn
      (s!"Warning: tool '{toolName}' has been called {count} times with identical parameters. " ++
        "Consider a different approach.")
  | pingPongBlock msg => .block msg
  | pingPongWarn msg => .warn msg
  | allow => .allow

def refuse (guard : LoopGuard) (decision : Decision) : Option (Decision × LoopGuard) := do
  let blockedCalls ← u32 (guard.blockedCalls + 1)
  return (decision, { guard with blockedCalls })

/-- Note a call, for the statistics and for ping-pong detection. -/
def remember (guard : LoopGuard) (hash toolName : String) : LoopGuard :=
  let recent :=
    if historySize ≤ guard.recentCalls.length then guard.recentCalls.eraseIdx 0
    else guard.recentCalls
  { guard with
    hashToTool := guard.hashToTool.orInsert hash toolName
    recentCalls := recent ++ [hash] }

@[simp] theorem config_remember (guard : LoopGuard) (hash toolName : String) :
    (guard.remember hash toolName).config = guard.config := rfl

@[simp] theorem callCounts_remember (guard : LoopGuard) (hash toolName : String) :
    (guard.remember hash toolName).callCounts = guard.callCounts := rfl

/-- Warning bucket: warn, or block if there were too many warnings. -/
def warnOrBlock (guard : LoopGuard) (hash : String) (count : ℕ) :
    Option (Decision × LoopGuard) := do
  let (warningCount, warningsEmitted) ← bump guard.warningsEmitted hash
  let guard := { guard with warningsEmitted }
  if guard.config.maxWarningsPerCall < warningCount then
    -- upgrade to block after too many warnings
    guard.refuse (.warningsExhausted count)
  else return (.warn count, guard)

/-- Ping-pong detection (runs even if individual hash counts are low). -/
def checkPingPong (guard : LoopGuard) (hash : String) : Option (Decision × LoopGuard) := do
  match ← guard.detectPingPong with
  | none => return (.allow, guard)
  | some msg =>
    let repeats ← PingPong.countPingPongRepeats guard.recentCalls
    if guard.config.pingPongMinRepeats ≤ repeats then guard.refuse (.pingPongBlock msg)
    else
      let (warningCount, warningsEmitted) ← bump guard.warningsEmitted ("pingpong_" ++ hash)
      let guard := { guard with warningsEmitted }
      if warningCount ≤ guard.config.maxWarningsPerCall then return (.pingPongWarn msg, guard)
      else return (.allow, guard)

def multiplier (env : Env) (config : LoopGuardConfig) (toolName : String) (params : Json) : ℕ :=
  if isPollCall env toolName params then config.pollMultiplier else 1

/-- `check`, with the reason for the verdict. -/
def judge (env : Env) (guard : LoopGuard) (toolName : String) (params : Json) :
    Option (Decision × LoopGuard) := do
  let totalCalls ← u32 (guard.totalCalls + 1)
  let guard := { guard with totalCalls }
  if guard.config.globalCircuitBreaker < totalCalls then guard.refuse .circuitBreak
  else
    let hash := computeHash env toolName params
    let guard := guard.remember hash toolName
    if hash ∈ guard.blockedOutcomes then guard.refuse .outcomeBlock
    else
      let (count, callCounts) ← bump guard.callCounts hash
      let guard := { guard with callCounts }
      let multiplier := multiplier env guard.config toolName params
      let effectiveWarn ← u32 (guard.config.warnThreshold * multiplier)
      let effectiveBlock ← u32 (guard.config.blockThreshold * multiplier)
      if effectiveBlock ≤ count then guard.refuse (.countBlock count)
      else if effectiveWarn ≤ count then guard.warnOrBlock hash count
      else guard.checkPingPong hash

/-- Check whether a tool call should proceed. -/
def check (env : Env) (guard : LoopGuard) (toolName : String) (params : Json) :
    Option (LoopGuardVerdict × LoopGuard) :=
  (judge env guard toolName params).map fun r => (r.1.verdict guard.config toolName, r.2)

def outcomeWarning (toolName : String) : String :=
  s!"Tool '{toolName}' is returning identical results — the approach isn't working."

def recordOutcome (env : Env) (guard : LoopGuard) (toolName : String) (params : Json)
    (result : String) : Option (Option String × LoopGuard) := do
  let outcomeHash := computeOutcomeHash env toolName params result
  let callHash := computeHash env toolName params
  let (count, outcomeCounts) ← bump guard.outcomeCounts outcomeHash
  let guard := { guard with outcomeCounts }
  if guard.config.outcomeBlockThreshold ≤ count then
    -- the next check of this call is blocked
    return (some (outcomeWarning toolName),
      { guard with blockedOutcomes := insert callHash guard.blockedOutcomes })
  else if guard.config.outcomeWarnThreshold ≤ count then
    return (some (outcomeWarning toolName), guard)
  else return (none, guard)

/-- The suggested backoff delay for a polling tool call. -/
def getPollBackoff (env : Env) (guard : LoopGuard) (toolName : String) (params : Json) :
    Option (Option ℕ × LoopGuard) :=
  if isPollCall env toolName params then do
    let (count, pollCounts) ← bump guard.pollCounts (computeHash env toolName params)
    let guard := { guard with pollCounts }
    -- the backoff starts on the second call
    if count ≤ 1 then return (none, guard)
    let delay := (backoffScheduleMs[count - 2]?).getD (backoffScheduleMs.getLast?.getD 60000)
    return (some delay, guard)
  else some (none, guard)

/-! ## What a check can do -/

def countOf (counts : Table String ℕ) (key : String) : ℕ := (counts.lookup key).getD 0

theorem u32_eq_some (h : u32 n = some m) : m = n := by
  rw [u32] at h
  split_ifs at h
  exact (some.inj h).symm

theorem u32_of_lt (h : n < 2 ^ 32) : u32 n = some n := if_pos h

theorem bump_eq_some (h : bump counts key = some (count, counts')) :
    count = countOf counts key + 1 ∧ countOf counts' key = count ∧
      ∀ k, countOf counts k ≤ countOf counts' k ∧ countOf counts' k ≤ countOf counts k + 1 := by
  obtain ⟨n, hn, h⟩ := bind_eq_some_iff.mp h
  cases h
  obtain rfl := u32_eq_some hn
  refine ⟨rfl, ?_, fun k => ?_⟩
  · rw [countOf, AList.lookup_insert]
    rfl
  · by_cases hk : k = key
    · rw [hk, countOf, countOf, AList.lookup_insert]
      exact ⟨Nat.le_succ _, le_rfl⟩
    · rw [countOf, countOf, AList.lookup_insert_ne hk]
      exact ⟨le_rfl, Nat.le_succ _⟩

theorem exists_bump (h : countOf counts key + 1 < 2 ^ 32) : ∃ r, bump counts key = some r := by
  rw [bump, show u32 ((counts.lookup key).getD 0 + 1) = some _ from u32_of_lt h]
  exact ⟨_, rfl⟩

def calls (guard : LoopGuard) (hash : String) : ℕ := countOf guard.callCounts hash

def warnings (guard : LoopGuard) (key : String) : ℕ := countOf guard.warningsEmitted key

def Decision.refuses : Decision → Bool
  | circuitBreak | outcomeBlock | countBlock _ | warningsExhausted _ | pingPongBlock _ => true
  | warn _ | pingPongWarn _ | allow => false

/-- The call is blocked by its count, by exhausted warnings or by repeated outcomes. -/
def Decision.persists : Decision → Bool
  | outcomeBlock | countBlock _ | warningsExhausted _ => true
  | _ => false

/-- What the last part of a check leaves alone. -/
structure Frame (guard guard' : LoopGuard) : Prop where
  config : guard'.config = guard.config
  totalCalls : guard'.totalCalls = guard.totalCalls
  blockedOutcomes : guard'.blockedOutcomes = guard.blockedOutcomes
  callCounts : guard'.callCounts = guard.callCounts
  outcomeCounts : guard'.outcomeCounts = guard.outcomeCounts
  pollCounts : guard'.pollCounts = guard.pollCounts
  warnings : ∀ key, guard.warnings key ≤ guard'.warnings key ∧
    guard'.warnings key ≤ guard.warnings key + 1

section

variable {guard guard' : LoopGuard} {decision : Decision} {hash : String} {count : ℕ}

theorem Frame.refl (guard : LoopGuard) : Frame guard guard :=
  ⟨rfl, rfl, rfl, rfl, rfl, rfl, fun _ => ⟨le_rfl, Nat.le_succ _⟩⟩

theorem Frame.calls_eq (h : Frame guard guard') (hash : String) :
    guard'.calls hash = guard.calls hash := by
  rw [LoopGuard.calls, h.callCounts]
  rfl

theorem refuse_eq_some (h : guard.refuse decision = some (decision', guard')) :
    decision' = decision ∧ guard' = { guard with blockedCalls := guard.blockedCalls + 1 } := by
  obtain ⟨n, hn, h⟩ := bind_eq_some_iff.mp h
  cases h
  obtain rfl := u32_eq_some hn
  exact ⟨rfl, rfl⟩

theorem exists_refuse (h : guard.blockedCalls + 1 < 2 ^ 32) (decision : Decision) :
    ∃ r, guard.refuse decision = some r := by
  rw [refuse, u32_of_lt h]
  exact ⟨_, rfl⟩

theorem warnOrBlock_eq_some (h : guard.warnOrBlock hash count = some (decision, guard')) :
    Frame guard guard' ∧ guard'.blockedCalls = guard.blockedCalls + decision.refuses.toNat ∧
      guard'.warnings hash = guard.warnings hash + 1 ∧
      (decision = .warn count ∧ guard'.warnings hash ≤ guard.config.maxWarningsPerCall ∨
        decision = .warningsExhausted count ∧
          guard.config.maxWarningsPerCall < guard'.warnings hash) := by
  obtain ⟨⟨warningCount, warningsEmitted⟩, hbump, h⟩ := bind_eq_some_iff.mp h
  obtain ⟨hcount, hwarnings, hothers⟩ := bump_eq_some hbump
  dsimp only at h
  split_ifs at h with hmax
  · obtain ⟨rfl, rfl⟩ := refuse_eq_some h
    exact ⟨⟨rfl, rfl, rfl, rfl, rfl, rfl, hothers⟩, rfl, hwarnings.trans hcount,
      .inr ⟨rfl, Nat.lt_of_lt_of_eq hmax hwarnings.symm⟩⟩
  · cases h
    exact ⟨⟨rfl, rfl, rfl, rfl, rfl, rfl, hothers⟩, rfl, hwarnings.trans hcount,
      .inl ⟨rfl, hwarnings.trans_le (Nat.le_of_not_lt hmax)⟩⟩

theorem exists_warnOrBlock (hwarnings : guard.warnings hash + 1 < 2 ^ 32)
    (hblocked : guard.blockedCalls + 1 < 2 ^ 32) : ∃ r, guard.warnOrBlock hash count = some r := by
  obtain ⟨⟨n, counts⟩, hbump⟩ := exists_bump hwarnings
  rw [warnOrBlock, hbump]
  simp only [bind, bind_some]
  split_ifs
  · apply exists_refuse
    exact hblocked
  · exact ⟨_, rfl⟩

theorem checkPingPong_eq_some (h : guard.checkPingPong hash = some (decision, guard')) :
    Frame guard guard' ∧ guard'.blockedCalls = guard.blockedCalls + decision.refuses.toNat ∧
      decision.persists = false := by
  obtain ⟨found, -, h⟩ := bind_eq_some_iff.mp h
  cases found with
  | none =>
    cases h
    exact ⟨.refl guard, rfl, rfl⟩
  | some msg =>
    obtain ⟨repeats, -, h⟩ := bind_eq_some_iff.mp h
    split_ifs at h
    · obtain ⟨rfl, rfl⟩ := refuse_eq_some h
      exact ⟨⟨rfl, rfl, rfl, rfl, rfl, rfl, (Frame.refl guard).warnings⟩, rfl, rfl⟩
    · obtain ⟨⟨warningCount, warningsEmitted⟩, hbump, h⟩ := bind_eq_some_iff.mp h
      obtain ⟨-, -, hothers⟩ := bump_eq_some hbump
      dsimp only at h
      split_ifs at h
      all_goals
        cases h
        exact ⟨⟨rfl, rfl, rfl, rfl, rfl, rfl, hothers⟩, rfl, rfl⟩

theorem exists_checkPingPong (hwarnings : ∀ key, guard.warnings key + 1 < 2 ^ 32)
    (hblocked : guard.blockedCalls + 1 < 2 ^ 32) : ∃ r, guard.checkPingPong hash = some r := by
  obtain ⟨found, hfound⟩ := PingPong.exists_detectPattern guard.recentCalls
  obtain ⟨n, hn⟩ := PingPong.exists_countPingPongRepeats guard.recentCalls
  obtain ⟨⟨k, counts⟩, hbump⟩ := exists_bump (hwarnings ("pingpong_" ++ hash))
  rw [checkPingPong, detectPingPong, hfound]
  cases found with
  | none => exact ⟨_, rfl⟩
  | some pattern =>
    simp only [bind, map_some, bind_some, hn, hbump]
    split_ifs
    · exact exists_refuse hblocked _
    · exact ⟨_, rfl⟩
    · exact ⟨_, rfl⟩

end

def effectiveWarn (env : Env) (config : LoopGuardConfig) (toolName : String) (params : Json) : ℕ :=
  config.warnThreshold * multiplier env config toolName params

def effectiveBlock (env : Env) (config : LoopGuardConfig) (toolName : String) (params : Json) : ℕ :=
  config.blockThreshold * multiplier env config toolName params

def Settled (env : Env) (guard : LoopGuard) (toolName : String) (params : Json) : Prop :=
  let hash := computeHash env toolName params
  hash ∈ guard.blockedOutcomes ∨
    effectiveBlock env guard.config toolName params ≤ guard.calls hash ∨
    effectiveWarn env guard.config toolName params ≤ guard.calls hash ∧
      guard.config.maxWarningsPerCall < guard.warnings hash

/-- How a check changes the counters. -/
structure Advanced (guard : LoopGuard) (refused : Bool) (guard' : LoopGuard) : Prop where
  config : guard'.config = guard.config
  totalCalls : guard'.totalCalls = guard.totalCalls + 1
  blockedOutcomes : guard'.blockedOutcomes = guard.blockedOutcomes
  outcomeCounts : guard'.outcomeCounts = guard.outcomeCounts
  pollCounts : guard'.pollCounts = guard.pollCounts
  blockedCalls : guard'.blockedCalls = guard.blockedCalls + refused.toNat
  calls : ∀ hash, guard.calls hash ≤ guard'.calls hash ∧ guard'.calls hash ≤ guard.calls hash + 1
  warnings : ∀ key, guard.warnings key ≤ guard'.warnings key ∧
    guard'.warnings key ≤ guard.warnings key + 1

/-- **What one check does.** -/
structure Judged (env : Env) (guard : LoopGuard) (toolName : String) (params : Json)
    (decision : Decision) (guard' : LoopGuard) : Prop
    extends Advanced guard decision.refuses guard' where
  circuit : decision = .circuitBreak ∨ guard'.totalCalls ≤ guard.config.globalCircuitBreaker
  /-- a call that is made is counted, below its limit, and with a warning above the first one -/
  counted : decision.refuses = false →
    guard'.calls (computeHash env toolName params) =
        guard.calls (computeHash env toolName params) + 1 ∧
      guard'.calls (computeHash env toolName params) <
        effectiveBlock env guard.config toolName params ∧
      (guard'.calls (computeHash env toolName params) <
          effectiveWarn env guard.config toolName params ∨
        guard'.warnings (computeHash env toolName params) =
            guard.warnings (computeHash env toolName params) + 1 ∧
          guard'.warnings (computeHash env toolName params) ≤ guard.config.maxWarningsPerCall)
  /-- a call that is blocked for good is refused -/
  settled : Settled env guard toolName params → decision.refuses = true
  /-- and it stays blocked -/
  persists : decision.persists = true → Settled env guard' toolName params

section

variable {env : Env} {guard guard' : LoopGuard} {toolName : String} {params : Json}
  {decision : Decision}

def entered (env : Env) (guard : LoopGuard) (toolName : String) (params : Json)
    (callCounts : Table String ℕ) : LoopGuard :=
  { ({ guard with totalCalls := guard.totalCalls + 1 } : LoopGuard).remember
      (computeHash env toolName params) toolName with callCounts }

/-- The call has passed the circuit breaker and is not blocked, and its count is low. -/
structure Entering (env : Env) (guard : LoopGuard) (toolName : String) (params : Json)
    (callCounts : Table String ℕ) (count : ℕ) : Prop where
  circuit : guard.totalCalls + 1 ≤ guard.config.globalCircuitBreaker
  notBlocked : computeHash env toolName params ∉ guard.blockedOutcomes
  count_eq : count = guard.calls (computeHash env toolName params) + 1
  lookup : countOf callCounts (computeHash env toolName params) = count
  others : ∀ hash, guard.calls hash ≤ countOf callCounts hash ∧
    countOf callCounts hash ≤ guard.calls hash + 1
  below : count < effectiveBlock env guard.config toolName params

namespace Entering

variable {callCounts : Table String ℕ} {count : ℕ}
  (h : Entering env guard toolName params callCounts count)

include h

theorem not_settled (hwarn : count < effectiveWarn env guard.config toolName params ∨
      guard.warnings (computeHash env toolName params) < guard.config.maxWarningsPerCall) :
    ¬ Settled env guard toolName params := by
  obtain ⟨-, hopen, hcount, -, -, hbelow⟩ := h
  rintro (hblocked | hcalls | ⟨hcalls, hwarnings⟩)
  · exact hopen hblocked
  · omega
  · omega

theorem advanced (hframe : Frame (guard.entered env toolName params callCounts) guard')
    (hblocked : guard'.blockedCalls = guard.blockedCalls + refused.toNat) :
    Advanced guard refused guard' := by
  refine ⟨hframe.config, hframe.totalCalls, hframe.blockedOutcomes, hframe.outcomeCounts,
    hframe.pollCounts, hblocked, fun hash => ?_, hframe.warnings⟩
  rw [hframe.calls_eq]
  exact h.others hash

theorem judged_of_warnOrBlock (habove : effectiveWarn env guard.config toolName params ≤ count)
    (hwarn : (guard.entered env toolName params callCounts).warnOrBlock
      (computeHash env toolName params) count = some (decision, guard')) :
    Judged env guard toolName params decision guard' := by
  obtain ⟨hframe, hblocked, hwarnings, hcases⟩ := warnOrBlock_eq_some hwarn
  have hcalls : guard'.calls (computeHash env toolName params) = count :=
    (hframe.calls_eq _).trans h.lookup
  have hcircuit := hframe.totalCalls.trans_le h.circuit
  rcases hcases with ⟨rfl, hmax⟩ | ⟨rfl, hmax⟩
  · refine ⟨h.advanced hframe hblocked, .inr hcircuit, fun _ => ?_, fun hsettled => ?_, nofun⟩
    · rw [hcalls]
      exact ⟨h.count_eq, h.below, .inr ⟨hwarnings, hmax⟩⟩
    · rw [hwarnings] at hmax
      exact absurd hsettled (h.not_settled (.inr hmax))
  · refine ⟨h.advanced hframe hblocked, .inr hcircuit, nofun, fun _ => rfl, fun _ => ?_⟩
    refine .inr (.inr ⟨?_, ?_⟩)
    · rw [hcalls, hframe.config]
      exact habove
    · rw [hframe.config]
      exact hmax

theorem judged_of_checkPingPong (hlow : count < effectiveWarn env guard.config toolName params)
    (hcheck : (guard.entered env toolName params callCounts).checkPingPong
      (computeHash env toolName params) = some (decision, guard')) :
    Judged env guard toolName params decision guard' := by
  obtain ⟨hframe, hblocked, hpersists⟩ := checkPingPong_eq_some hcheck
  have hcalls : guard'.calls (computeHash env toolName params) = count :=
    (hframe.calls_eq _).trans h.lookup
  refine ⟨h.advanced hframe hblocked, .inr (hframe.totalCalls.trans_le h.circuit), fun _ => ?_,
    fun hsettled => absurd hsettled (h.not_settled (.inl hlow)), fun htrue => ?_⟩
  · rw [hcalls]
    exact ⟨h.count_eq, h.below, .inl hlow⟩
  · rw [hpersists] at htrue
    cases htrue

end Entering

theorem judged_of_judge (h : judge env guard toolName params = some (decision, guard')) :
    Judged env guard toolName params decision guard' := by
  obtain ⟨total, htotal, h⟩ := bind_eq_some_iff.mp h
  obtain rfl := u32_eq_some htotal
  have hsame (counts : Table String ℕ) (key : String) :
      countOf counts key ≤ countOf counts key ∧ countOf counts key ≤ countOf counts key + 1 :=
    ⟨le_rfl, Nat.le_succ _⟩
  dsimp only at h
  split_ifs at h with hcircuit houtcome
  · obtain ⟨rfl, rfl⟩ := refuse_eq_some h
    exact ⟨⟨rfl, rfl, rfl, rfl, rfl, rfl, hsame _, hsame _⟩, .inl rfl, nofun, fun _ => rfl, nofun⟩
  · obtain ⟨rfl, rfl⟩ := refuse_eq_some h
    exact ⟨⟨rfl, rfl, rfl, rfl, rfl, rfl, hsame _, hsame _⟩, .inr (Nat.le_of_not_lt hcircuit),
      nofun, fun _ => rfl, fun _ => .inl houtcome⟩
  · obtain ⟨⟨count, callCounts⟩, hbump, h⟩ := bind_eq_some_iff.mp h
    obtain ⟨hcount, hcalls, hothers⟩ := bump_eq_some hbump
    obtain ⟨warn, hwarn, h⟩ := bind_eq_some_iff.mp h
    obtain ⟨block, hblock, h⟩ := bind_eq_some_iff.mp h
    obtain rfl := u32_eq_some hwarn
    obtain rfl := u32_eq_some hblock
    have hcircuit := Nat.le_of_not_lt hcircuit
    split_ifs at h with hover habove
    · obtain ⟨rfl, rfl⟩ := refuse_eq_some h
      refine ⟨⟨rfl, rfl, rfl, rfl, rfl, rfl, hothers, hsame _⟩, .inr hcircuit, nofun,
        fun _ => rfl, fun _ => .inr (.inl ?_)⟩
      exact hover.trans_eq hcalls.symm
    · have hentering : Entering env guard toolName params callCounts count :=
        ⟨hcircuit, houtcome, hcount, hcalls, hothers, Nat.lt_of_not_le hover⟩
      exact hentering.judged_of_warnOrBlock habove h
    · have hentering : Entering env guard toolName params callCounts count :=
        ⟨hcircuit, houtcome, hcount, hcalls, hothers, Nat.lt_of_not_le hover⟩
      exact hentering.judged_of_checkPingPong (Nat.lt_of_not_le habove) h

/-- A check returns if no counter overflows. -/
theorem exists_judge (htotal : guard.totalCalls + 1 < 2 ^ 32)
    (hblocked : guard.blockedCalls + 1 < 2 ^ 32) (hcalls : ∀ hash, guard.calls hash + 1 < 2 ^ 32)
    (hwarnings : ∀ key, guard.warnings key + 1 < 2 ^ 32)
    (hwarn : effectiveWarn env guard.config toolName params < 2 ^ 32)
    (hblock : effectiveBlock env guard.config toolName params < 2 ^ 32) :
    ∃ decision guard', judge env guard toolName params = some (decision, guard') := by
  rw [← Prod.exists', judge, u32_of_lt htotal]
  obtain ⟨⟨count, callCounts⟩, hbump⟩ := exists_bump (hcalls (computeHash env toolName params))
  have hwarn' := u32_of_lt hwarn
  have hblock' := u32_of_lt hblock
  rw [effectiveWarn] at hwarn'
  rw [effectiveBlock] at hblock'
  simp only [bind, bind_some, config_remember, callCounts_remember, hbump, hwarn', hblock']
  split_ifs
  · apply exists_refuse
    exact hblocked
  · apply exists_refuse
    exact hblocked
  · apply exists_refuse
    exact hblocked
  · apply exists_warnOrBlock
    · exact hwarnings _
    · exact hblocked
  · apply exists_checkPingPong
    · exact hwarnings
    · exact hblocked

end

end LoopGuard

end AlloyAgent
