import AlloyAgent.LoopGuard

/-!
# Runs of the loop guard

A run is any sequence of checks, reports of results and requests for a backoff, with any tools and
parameters.

* `step_cases`: what one operation does;
* `loopGuard_bounds`: how often a call can pass, and that a blocked one stays blocked.
-/

namespace AlloyAgent

open Option Transition

def LoopGuardVerdict.refuses : LoopGuardVerdict → Bool
  | block _ | circuitBreak _ => true
  | allow | warn _ => false

def LoopGuardVerdict.breaksCircuit : LoopGuardVerdict → Bool
  | circuitBreak _ => true
  | _ => false

namespace LoopGuard

inductive Operation where
  | check (toolName : String) (params : Json)
  | recordOutcome (toolName : String) (params : Json) (result : String)
  | getPollBackoff (toolName : String) (params : Json)

def step (env : Env) (guard : LoopGuard) : Operation → Option LoopGuard
  | .check toolName params => (check env guard toolName params).map Prod.snd
  | .recordOutcome toolName params result =>
    (recordOutcome env guard toolName params result).map Prod.snd
  | .getPollBackoff toolName params => (getPollBackoff env guard toolName params).map Prod.snd

def verdictOf (env : Env) (guard : LoopGuard) : Operation → Option LoopGuardVerdict
  | .check toolName params => (check env guard toolName params).map Prod.fst
  | _ => none

/-- Counts one for a selected operation with a verdict of the given kind. -/
def verdictCount (env : Env) (selected : Operation → Prop) [DecidablePred selected]
    (kind : LoopGuardVerdict → Bool) (guard : LoopGuard) (op : Operation) : ℕ :=
  if selected op then (verdictOf env guard op).elim 0 fun v => (kind v).toNat else 0

@[simp] theorem refuses_verdict (d : Decision) (config : LoopGuardConfig) (toolName : String) :
    (d.verdict config toolName).refuses = d.refuses := by
  cases d <;> rfl

/-- An operation that is not a check. -/
structure Passive (guard guard' : LoopGuard) : Prop where
  config : guard'.config = guard.config
  totalCalls : guard'.totalCalls = guard.totalCalls
  blockedCalls : guard'.blockedCalls = guard.blockedCalls
  callCounts : guard'.callCounts = guard.callCounts
  warningsEmitted : guard'.warningsEmitted = guard.warningsEmitted
  blockedOutcomes : guard.blockedOutcomes ⊆ guard'.blockedOutcomes
  outcomeCounts : ∀ key, countOf guard'.outcomeCounts key ≤ countOf guard.outcomeCounts key + 1
  pollCounts : ∀ key, countOf guard'.pollCounts key ≤ countOf guard.pollCounts key + 1

section

variable {env : Env} {guard guard' : LoopGuard} {toolName : String} {params : Json}

theorem passive_recordOutcome
    (h : recordOutcome env guard toolName params result = some (warning, guard')) :
    Passive guard guard' := by
  obtain ⟨⟨count, outcomeCounts⟩, hbump, h⟩ := bind_eq_some_iff.mp h
  obtain ⟨-, -, hothers⟩ := bump_eq_some hbump
  have hcounts (key : String) := (hothers key).2
  dsimp only at h
  split_ifs at h
  · cases h
    exact ⟨rfl, rfl, rfl, rfl, rfl, Finset.subset_insert _ _, hcounts, fun _ => Nat.le_succ _⟩
  all_goals
    cases h
    exact ⟨rfl, rfl, rfl, rfl, rfl, Finset.Subset.refl _, hcounts, fun _ => Nat.le_succ _⟩

theorem passive_getPollBackoff
    (h : getPollBackoff env guard toolName params = some (delay, guard')) :
    Passive guard guard' := by
  rw [getPollBackoff] at h
  split_ifs at h
  · obtain ⟨⟨count, pollCounts⟩, hbump, h⟩ := bind_eq_some_iff.mp h
    obtain ⟨-, -, hothers⟩ := bump_eq_some hbump
    have hcounts (key : String) := (hothers key).2
    dsimp only at h
    split_ifs at h
    all_goals
      cases h
      exact ⟨rfl, rfl, rfl, rfl, rfl, Finset.Subset.refl _, fun _ => Nat.le_succ _, hcounts⟩
  · cases h
    exact ⟨rfl, rfl, rfl, rfl, rfl, Finset.Subset.refl _, fun _ => Nat.le_succ _,
      fun _ => Nat.le_succ _⟩

theorem check_eq_some (h : check env guard toolName params = some (verdict, guard')) :
    ∃ d, judge env guard toolName params = some (d, guard') ∧
      verdict = d.verdict guard.config toolName := by
  obtain ⟨⟨d, guard₁⟩, hjudge, h⟩ := map_eq_some_iff.mp h
  cases h
  exact ⟨d, hjudge, rfl⟩

/-- **What one operation does.** -/
theorem step_cases (h : step env guard op = some guard') :
    (∃ toolName params d, op = .check toolName params ∧
      verdictOf env guard op = some (d.verdict guard.config toolName) ∧
      Judged env guard toolName params d guard') ∨
    verdictOf env guard op = none ∧ Passive guard guard' := by
  cases op with
  | check toolName params =>
    obtain ⟨⟨verdict, guard₁⟩, hcheck, rfl⟩ := map_eq_some_iff.mp h
    obtain ⟨d, hjudge, rfl⟩ := check_eq_some hcheck
    refine .inl ⟨toolName, params, d, rfl, ?_, judged_of_judge hjudge⟩
    rw [verdictOf, hcheck]
    rfl
  | recordOutcome toolName params result =>
    obtain ⟨⟨warning, guard₁⟩, hrecord, rfl⟩ := map_eq_some_iff.mp h
    exact .inr ⟨rfl, passive_recordOutcome hrecord⟩
  | getPollBackoff toolName params =>
    obtain ⟨⟨delay, guard₁⟩, hdelay, rfl⟩ := map_eq_some_iff.mp h
    exact .inr ⟨rfl, passive_getPollBackoff hdelay⟩

end

/-! ## Nothing decreases -/

/-- What the guard has counted stays. -/
structure Grows (guard guard' : LoopGuard) : Prop where
  config : guard'.config = guard.config
  blockedOutcomes : guard.blockedOutcomes ⊆ guard'.blockedOutcomes
  calls : ∀ hash, guard.calls hash ≤ guard'.calls hash
  warnings : ∀ key, guard.warnings key ≤ guard'.warnings key

section

variable {env : Env} {guard guard' : LoopGuard} {toolName : String} {params : Json}

theorem Judged.grows (h : Judged env guard toolName params d guard') : Grows guard guard' :=
  ⟨h.config, h.blockedOutcomes.ge, fun hash => (h.calls hash).1, fun key => (h.warnings key).1⟩

section

variable (h : Passive guard guard')
include h

theorem Passive.calls_eq (hash : String) : guard'.calls hash = guard.calls hash := by
  rw [LoopGuard.calls, h.callCounts]
  rfl

theorem Passive.warnings_eq (key : String) : guard'.warnings key = guard.warnings key := by
  rw [LoopGuard.warnings, h.warningsEmitted]
  rfl

theorem Passive.grows : Grows guard guard' :=
  ⟨h.config, h.blockedOutcomes, fun hash => (h.calls_eq hash).ge,
    fun key => (h.warnings_eq key).ge⟩

end

theorem grows_step (h : step env guard op = some guard') : Grows guard guard' := by
  obtain ⟨toolName, params, d, -, -, hjudged⟩ | ⟨-, hpassive⟩ := step_cases h
  · exact hjudged.grows
  · exact hpassive.grows

theorem Grows.trans (h : Grows guard₁ guard₂) (h' : Grows guard₂ guard₃) : Grows guard₁ guard₃ :=
  ⟨h'.config.trans h.config, h.blockedOutcomes.trans h'.blockedOutcomes,
    fun hash => (h.calls hash).trans (h'.calls hash),
    fun key => (h.warnings key).trans (h'.warnings key)⟩

variable {ops : List Operation}

theorem grows_run (h : run (step env) guard ops = some guard') : Grows guard guard' := by
  have hstart : Grows guard guard :=
    ⟨rfl, Finset.Subset.refl _, fun _ => le_rfl, fun _ => le_rfl⟩
  refine run_invariant ?_ ops hstart h
  intro guard₁ op guard₂ hgrows hstep
  exact hgrows.trans (grows_step hstep)

theorem Settled.grows (h : Settled env guard toolName params) (hgrows : Grows guard guard') :
    Settled env guard' toolName params := by
  have hcalls := hgrows.calls (computeHash env toolName params)
  have hwarnings := hgrows.warnings (computeHash env toolName params)
  rw [Settled, hgrows.config]
  rcases h with hblocked | hcount | ⟨hcount, hmax⟩
  · exact .inl (hgrows.blockedOutcomes hblocked)
  · exact .inr (.inl (hcount.trans hcalls))
  · exact .inr (.inr ⟨hcount.trans hcalls, hmax.trans_le hwarnings⟩)

/-- **Once blocked**, a call is refused for the rest of the run. -/
theorem refused_after_block (hblock : judge env guard toolName params = some (d, guard₁))
    (hd : d.persists = true) (hrun : run (step env) guard₁ ops = some guard₂)
    (hcheck : check env guard₂ toolName params = some (verdict, guard₃)) :
    verdict.refuses = true := by
  have hsettled := ((judged_of_judge hblock).persists hd).grows (grows_run hrun)
  obtain ⟨d', hjudge, rfl⟩ := check_eq_some hcheck
  rw [refuses_verdict]
  exact (judged_of_judge hjudge).settled hsettled

end

/-! ## Counting verdicts -/

section

variable {env : Env} {config : LoopGuardConfig} {toolName : String} {params : Json}
  {guard guard' : LoopGuard} {k : ℕ} {op : Operation}

variable {selected : Operation → Prop} {kind : LoopGuardVerdict → Bool}

theorem verdictCount_of_none [DecidablePred selected] (h : verdictOf env guard op = none) :
    verdictCount env selected kind guard op = 0 := by
  rw [verdictCount, h]
  split_ifs <;> rfl

theorem verdictCount_of_some [DecidablePred selected] (h : verdictOf env guard op = some v) :
    verdictCount env selected kind guard op = if selected op then (kind v).toNat else 0 := by
  rw [verdictCount, h]
  rfl

/-- `k` calls have been made, and the counters know of them. -/
structure Within (env : Env) (config : LoopGuardConfig) (toolName : String) (params : Json)
    (k : ℕ) (guard : LoopGuard) : Prop where
  sameConfig : guard.config = config
  calls : k ≤ guard.calls (computeHash env toolName params)
  block : k ≤ effectiveBlock env config toolName params - 1
  warn : k ≤ min (guard.calls (computeHash env toolName params))
      (max (effectiveWarn env config toolName params) 1 - 1) +
    min (guard.warnings (computeHash env toolName params)) config.maxWarningsPerCall

theorem Within.grows (h : Within env config toolName params k guard)
    (hgrows : Grows guard guard') : Within env config toolName params k guard' := by
  have hcalls := hgrows.calls (computeHash env toolName params)
  have hwarnings := hgrows.warnings (computeHash env toolName params)
  refine ⟨hgrows.config.trans h.sameConfig, h.calls.trans hcalls, h.block, h.warn.trans ?_⟩
  exact Nat.add_le_add (min_le_min_right _ hcalls) (min_le_min_right _ hwarnings)

theorem Within.succ (h : Within env config toolName params k guard)
    (hjudged : Judged env guard toolName params d guard') (hd : d.refuses = false) :
    Within env config toolName params (k + 1) guard' := by
  obtain ⟨hcount, hblock, hwarn⟩ := hjudged.counted hd
  obtain ⟨hconfig, hcalls, -, hbound⟩ := h
  rw [hconfig] at hblock hwarn
  refine ⟨hjudged.config.trans hconfig, by omega, by omega, ?_⟩
  rcases hwarn with hbelow | ⟨hmore, hmax⟩
  · omega
  · omega

theorem within_step [DecidablePred fun op => op = Operation.check toolName params]
    (h : Within env config toolName params k guard) (hstep : step env guard op = some guard') :
    Within env config toolName params
      (k + verdictCount env (fun op => op = .check toolName params) (fun v => !v.refuses) guard op)
      guard' := by
  obtain ⟨toolName', params', d, rfl, hverdict, hjudged⟩ | ⟨hnone, hpassive⟩ := step_cases hstep
  · rw [verdictCount_of_some hverdict, refuses_verdict]
    split_ifs with hsame
    · obtain ⟨rfl, rfl⟩ := Operation.check.inj hsame
      cases hd : d.refuses with
      | false => exact h.succ hjudged hd
      | true => exact h.grows hjudged.grows
    · exact h.grows hjudged.grows
  · rw [verdictCount_of_none hnone]
    exact h.grows hpassive.grows

theorem within_new : Within env config toolName params 0 (new config) :=
  ⟨rfl, Nat.zero_le _, Nat.zero_le _, Nat.zero_le _⟩

/-- `k` checks have not been cut off by the circuit breaker, and it knows of them. -/
structure Open (config : LoopGuardConfig) (k : ℕ) (guard : LoopGuard) : Prop where
  sameConfig : guard.config = config
  totalCalls : k ≤ guard.totalCalls
  limit : k ≤ config.globalCircuitBreaker

theorem open_step (h : Open config k guard) (hstep : step env guard op = some guard') :
    Open config (k + verdictCount env (fun _ => True) (fun v => !v.breaksCircuit) guard op)
      guard' := by
  obtain ⟨hconfig, htotal, hlimit⟩ := h
  obtain ⟨toolName, params, d, -, hverdict, hjudged⟩ | ⟨hnone, hpassive⟩ := step_cases hstep
  · rw [verdictCount_of_some hverdict, if_pos trivial]
    have htotal' := hjudged.totalCalls
    cases hbreak : (d.verdict guard.config toolName).breaksCircuit with
    | true => exact ⟨hjudged.config.trans hconfig, by rw [htotal']; exact Nat.le_succ_of_le htotal,
        hlimit⟩
    | false =>
      have hcircuit := hjudged.circuit.resolve_left fun hd => by
        rw [hd] at hbreak
        cases hbreak
      rw [htotal', hconfig] at hcircuit
      refine ⟨hjudged.config.trans hconfig, ?_, ?_⟩
      · rw [htotal']
        exact Nat.succ_le_succ htotal
      · exact (Nat.succ_le_succ htotal).trans hcircuit
  · rw [verdictCount_of_none hnone]
    exact ⟨hpassive.config.trans hconfig, hpassive.totalCalls.symm ▸ htotal, hlimit⟩

theorem blocked_step (h : guard.blockedCalls = k) (hstep : step env guard op = some guard') :
    guard'.blockedCalls =
      k + verdictCount env (fun _ => True) LoopGuardVerdict.refuses guard op := by
  obtain ⟨toolName, params, d, -, hverdict, hjudged⟩ | ⟨hnone, hpassive⟩ := step_cases hstep
  · rw [verdictCount_of_some hverdict, if_pos trivial, refuses_verdict, hjudged.blockedCalls, h]
  · rw [verdictCount_of_none hnone, hpassive.blockedCalls, h]
    rfl

end

/-- The thresholds are in the range of `u32`, with and without the multiplier. -/
structure InRange (config : LoopGuardConfig) : Prop where
  warn : config.warnThreshold < 2 ^ 32
  block : config.blockThreshold < 2 ^ 32
  pollWarn : config.warnThreshold * config.pollMultiplier < 2 ^ 32
  pollBlock : config.blockThreshold * config.pollMultiplier < 2 ^ 32

/-- No counter is above the number of operations. -/
structure Counted (config : LoopGuardConfig) (n : ℕ) (guard : LoopGuard) : Prop where
  sameConfig : guard.config = config
  totalCalls : guard.totalCalls ≤ n
  blockedCalls : guard.blockedCalls ≤ n
  calls : ∀ hash, guard.calls hash ≤ n
  warnings : ∀ key, guard.warnings key ≤ n
  outcomeCounts : ∀ key, countOf guard.outcomeCounts key ≤ n
  pollCounts : ∀ key, countOf guard.pollCounts key ≤ n

section

variable {env : Env} {config : LoopGuardConfig} {guard guard' : LoopGuard} {op : Operation} {n : ℕ}

theorem counted_new : Counted config 0 (new config) :=
  ⟨rfl, le_rfl, le_rfl, fun _ => le_rfl, fun _ => le_rfl, fun _ => le_rfl, fun _ => le_rfl⟩

theorem counted_step (h : Counted config n guard) (hstep : step env guard op = some guard') :
    Counted config (n + 1) guard' := by
  have hsucc {a b : ℕ} (hle : b ≤ a + 1) (ha : a ≤ n) : b ≤ n + 1 :=
    hle.trans (Nat.succ_le_succ ha)
  obtain ⟨toolName, params, d, -, -, hjudged⟩ | ⟨-, hpassive⟩ := step_cases hstep
  · refine ⟨hjudged.config.trans h.sameConfig, hsucc hjudged.totalCalls.le h.totalCalls,
      hsucc ?_ h.blockedCalls, fun hash => hsucc (hjudged.calls hash).2 (h.calls hash),
      fun key => hsucc (hjudged.warnings key).2 (h.warnings key), fun key => ?_, fun key => ?_⟩
    · rw [hjudged.blockedCalls]
      exact Nat.add_le_add_left (Bool.toNat_le _) _
    · rw [hjudged.outcomeCounts]
      exact Nat.le_succ_of_le (h.outcomeCounts key)
    · rw [hjudged.pollCounts]
      exact Nat.le_succ_of_le (h.pollCounts key)
  · refine ⟨hpassive.config.trans h.sameConfig, ?_, ?_, fun hash => ?_, fun key => ?_,
      fun key => hsucc (hpassive.outcomeCounts key) (h.outcomeCounts key),
      fun key => hsucc (hpassive.pollCounts key) (h.pollCounts key)⟩
    · rw [hpassive.totalCalls]
      exact Nat.le_succ_of_le h.totalCalls
    · rw [hpassive.blockedCalls]
      exact Nat.le_succ_of_le h.blockedCalls
    · rw [hpassive.calls_eq]
      exact Nat.le_succ_of_le (h.calls hash)
    · rw [hpassive.warnings_eq]
      exact Nat.le_succ_of_le (h.warnings key)

theorem effective_lt (h : InRange config) (env : Env) (toolName : String) (params : Json) :
    effectiveWarn env config toolName params < 2 ^ 32 ∧
      effectiveBlock env config toolName params < 2 ^ 32 := by
  rw [effectiveWarn, effectiveBlock, multiplier]
  split_ifs
  · exact ⟨h.pollWarn, h.pollBlock⟩
  · rw [Nat.mul_one, Nat.mul_one]
    exact ⟨h.warn, h.block⟩

theorem exists_step (hconfig : InRange config) (h : Counted config n guard)
    (hn : n + 1 < 2 ^ 32) : ∃ guard', step env guard op = some guard' := by
  have hlt {a : ℕ} (ha : a ≤ n) : a + 1 < 2 ^ 32 := by omega
  cases op with
  | check toolName params =>
    obtain ⟨hwarn, hblock⟩ := effective_lt hconfig env toolName params
    rw [← h.sameConfig] at hwarn hblock
    obtain ⟨d, guard', hjudge⟩ := exists_judge (hlt h.totalCalls) (hlt h.blockedCalls)
      (fun hash => hlt (h.calls hash)) (fun key => hlt (h.warnings key)) hwarn hblock
    exact ⟨guard', by rw [step, check, hjudge]; rfl⟩
  | recordOutcome toolName params result =>
    obtain ⟨⟨count, counts⟩, hbump⟩ :=
      exists_bump (hlt (h.outcomeCounts (computeOutcomeHash env toolName params result)))
    rw [step, recordOutcome, hbump]
    simp only [bind, bind_some]
    split_ifs <;> exact ⟨_, rfl⟩
  | getPollBackoff toolName params =>
    obtain ⟨⟨count, counts⟩, hbump⟩ :=
      exists_bump (hlt (h.pollCounts (computeHash env toolName params)))
    rw [step, getPollBackoff, hbump]
    simp only [bind, bind_some]
    split_ifs <;> exact ⟨_, rfl⟩

/-- **A run returns** if it is not longer than a `u32` can count. -/
theorem exists_run (hconfig : InRange config) : ∀ {ops : List Operation} {guard : LoopGuard}
    {n : ℕ}, Counted config n guard → n + ops.length < 2 ^ 32 →
    ∃ guard', run (step env) guard ops = some guard' := by
  intro ops
  induction ops with
  | nil => intro guard n _ _; exact ⟨guard, rfl⟩
  | cons op ops ih =>
    intro guard n h hn
    rw [List.length_cons] at hn
    obtain ⟨guard₁, hstep⟩ := @exists_step env config guard op n hconfig h (by omega)
    obtain ⟨guard', hrun⟩ := ih (counted_step h hstep) (by omega)
    refine ⟨guard', ?_⟩
    rw [run_cons, hstep]
    exact hrun

end

/-- **The loop guard**, in a run within the range of a `u32`: how often one call gets through,
that a blocked call stays refused, how many checks there are before the circuit breaker, and what
`blocked_calls` counts. -/
theorem loopGuard_bounds (env : Env) (config : LoopGuardConfig) (ops : List Operation)
    (toolName : String) (params : Json)
    [DecidablePred fun op => op = Operation.check toolName params] :
    (InRange config → ops.length < 2 ^ 32 →
      ∃ guard, run (step env) (new config) ops = some guard) ∧
    ∀ guard, run (step env) (new config) ops = some guard →
      tally (step env)
          (verdictCount env (fun op => op = .check toolName params) fun v => !v.refuses)
          (new config) ops ≤
        min (effectiveBlock env config toolName params - 1)
          (max (effectiveWarn env config toolName params) 1 - 1 + config.maxWarningsPerCall) ∧
      (∀ d guard₁, judge env guard toolName params = some (d, guard₁) → d.persists = true →
        ∀ later guard₂ verdict guard₃, run (step env) guard₁ later = some guard₂ →
          check env guard₂ toolName params = some (verdict, guard₃) → verdict.refuses = true) ∧
      tally (step env) (verdictCount env (fun _ => True) fun v => !v.breaksCircuit)
          (new config) ops ≤ config.globalCircuitBreaker ∧
      guard.blockedCalls =
        tally (step env) (verdictCount env (fun _ => True) LoopGuardVerdict.refuses)
          (new config) ops := by
  refine ⟨fun hconfig hlen => exists_run hconfig counted_new (by omega), fun guard hrun => ?_⟩
  refine ⟨?_, ?_, ?_, ?_⟩
  · have hwithin := run_tally (fun k guard op guard' => within_step) ops
      (@within_new env config toolName params) hrun
    rw [Nat.zero_add] at hwithin
    refine Nat.le_min.mpr ⟨hwithin.block, hwithin.warn.trans ?_⟩
    exact Nat.add_le_add (Nat.min_le_right _ _) (Nat.min_le_right _ _)
  · intro d guard₁ hjudge hd later guard₂ verdict guard₃ hlater hcheck
    exact refused_after_block hjudge hd hlater hcheck
  · have hnew : Open config 0 (new config) := ⟨rfl, le_rfl, Nat.zero_le _⟩
    have hopen := run_tally (fun k guard op guard' => open_step) ops hnew hrun
    rw [Nat.zero_add] at hopen
    exact hopen.limit
  · have hblocked := @run_tally _ _ (step env) _ (fun k guard => guard.blockedCalls = k)
      (fun k guard op guard' => blocked_step) ops 0 _ _ rfl hrun
    rw [Nat.zero_add] at hblocked
    exact hblocked

def plain : Env := ⟨id, fun _ => "null", .excerpt⟩

open Classical in
/-- Three times the same call, with the default configuration. -/
theorem three_reads_bounded :
    ∃ guard, run (step plain) (new {}) (List.replicate 3 (.check "file_read" .null)) =
        some guard ∧
      tally (step plain)
        (verdictCount plain (fun op => op = .check "file_read" .null) fun v => !v.refuses)
        (new {}) (List.replicate 3 (.check "file_read" .null)) ≤ 4 ∧
      guard.blockedCalls =
        tally (step plain) (verdictCount plain (fun _ => True) LoopGuardVerdict.refuses)
          (new {}) (List.replicate 3 (.check "file_read" .null)) := by
  obtain ⟨hreturns, hbounds⟩ := loopGuard_bounds plain {}
    (List.replicate 3 (.check "file_read" .null)) "file_read" .null
  obtain ⟨guard, hrun⟩ := hreturns ⟨by decide, by decide, by decide, by decide⟩ (by decide)
  obtain ⟨hcalls, -, -, hblocked⟩ := hbounds guard hrun
  exact ⟨guard, hrun, hcalls.trans (by decide), hblocked⟩

end LoopGuard

end AlloyAgent
