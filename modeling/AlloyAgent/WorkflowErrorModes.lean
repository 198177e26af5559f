import AlloyAgent.WorkflowExits

/-!
# What the error mode of a workflow step does

A *trial* is one execution of a step with the outcomes of the messages that were sent for it.
`runTrials` lists the trials of a run up to its end.

* `endsExhausted_runStep`, `endsExhausted_runSteps`: a round, and a run;
* `errorModes_honoured_iff`: the workflows of which all error modes are honoured.
-/

namespace AlloyAgent.Workflow

open List RustStr

variable {ω : Type}

def SendOutcome.failed : SendOutcome → Bool
  | .success _ _ _ => false
  | .failure _ => true
  | .timeout => true

/-- One execution of a step, and the outcomes of the messages that were sent for it. -/
structure Trial where
  step : WorkflowStep
  outcomes : List SendOutcome

/-- All attempts that the error mode allows have failed, and it does not say to go on then. -/
def Trial.Exhausted (t : Trial) : Prop :=
  (∀ o ∈ t.outcomes, o.failed = true) ∧
    match t.step.errorMode with
    | .fail => t.outcomes.length = 1
    | .skip => False
    | .retry maxRetries => t.outcomes.length = maxRetries + 1

/-! ## Trials of a run -/

/-- The messages of `retry`: it goes on until one is answered. -/
def retryOutcomes (env : Agents ω) (step : WorkflowStep) (agentId : AgentId) (prompt : String) :
    ℕ → ω → List SendOutcome
  | 0, _ => []
  | attempts + 1, w =>
    let (outcome, w) := env.send w agentId prompt step.timeoutSecs
    outcome :: if outcome.failed then retryOutcomes env step agentId prompt attempts w else []

def stepOutcomes (env : Agents ω) (step : WorkflowStep) (agentId : AgentId) (prompt : String)
    (w : ω) : List SendOutcome :=
  match step.errorMode with
  | .retry maxRetries => retryOutcomes env step agentId prompt (maxRetries + 1) w
  | _ => [(env.send w agentId prompt step.timeoutSecs).1]

def stepTrial (env : Agents ω) (step : WorkflowStep) (agentId : AgentId) (ex : Exec ω) : Trial :=
  ⟨step, stepOutcomes env step agentId (promptOf env step ex) (env.clock ex.world).2⟩

def sequentialTrials (env : Agents ω) (step : WorkflowStep) (ex : Exec ω) : List Trial :=
  match env.resolve ex.world step.agent with
  | some (agentId, _) => [stepTrial env step agentId ex]
  | none => []

def untilFailure : List Trial → List Trial
  | [] => []
  | t :: ts => if t.outcomes.any SendOutcome.failed then [t] else t :: untilFailure ts

/-- The results of a fan-out are read one after the other. -/
def fanOutTrials (env : Agents ω) (group : List WorkflowStep) (ex : Exec ω) : List Trial :=
  match resolveAll env ex group with
  | .error _ => []
  | .ok infos =>
    let (results, _) := env.sendAll (env.clock ex.world).2 (infos.map fun info =>
      (info.2.1, promptOf env info.1 ex, info.1.timeoutSecs))
    untilFailure (infos.zipIdx.map fun info => ⟨info.1.1, [results info.2]⟩)

def iterationTrials (env : Agents ω) (runId : WorkflowRunId) (step : WorkflowStep)
    (untilLower : String) (agentId : AgentId) (agentName : String) :
    ℕ → ℕ → Exec ω → List Trial
  | 0, _, _ => []
  | left + 1, loopIter, ex =>
    stepTrial env step agentId ex ::
      match timedStep env step agentId (promptOf env step ex) ex.world with
      | (.ok (some (output, inputTokens, outputTokens)), durationMs, w) =>
        let ex := pushResult runId
          ⟨step.name ++ " (iter " ++ toString (loopIter + 1) ++ ")", agentId.uuid, agentName,
            output, inputTokens, outputTokens, durationMs⟩ { ex with world := w }
        let ex := { ex with currentInput := output }
        if contains (env.toLowercase output).toList untilLower.toList then []
        else iterationTrials env runId step untilLower agentId agentName left (loopIter + 1) ex
      | _ => []

def loopTrials (env : Agents ω) (runId : WorkflowRunId) (step : WorkflowStep) (maxIterations : ℕ)
    (untilText : String) (ex : Exec ω) : List Trial :=
  match env.resolve ex.world step.agent with
  | some (agentId, agentName) =>
    iterationTrials env runId step (env.toLowercase untilText) agentId agentName maxIterations 0 ex
  | none => []

def roundTrials (env : Agents ω) (runId : WorkflowRunId) (steps : List WorkflowStep) (i : ℕ)
    (step : WorkflowStep) (ex : Exec ω) : List Trial :=
  match step.mode with
  | .sequential => sequentialTrials env step ex
  | .fanOut => fanOutTrials env (fanOutGroup steps i) ex
  | .collect => []
  | .conditional condition =>
    if conditionMet env condition ex then sequentialTrials env step ex else []
  | .loop maxIterations untilText => loopTrials env runId step maxIterations untilText ex

def runTrials (env : Agents ω) (runId : WorkflowRunId) (steps : List WorkflowStep) (i : ℕ)
    (ex : Exec ω) : List Trial :=
  if h : i < steps.length then
    roundTrials env runId steps i steps[i] ex ++
      match runStep env runId steps i steps[i] ex with
      | .error _ => []
      | .ok ex => runTrials env runId steps (nextIndex steps i steps[i]) ex
  else []
termination_by steps.length - i
decreasing_by
  have hlt := lt_nextIndex steps i steps[i]
  omega

def EndsExhausted (trials : List Trial) : Prop :=
  ∃ t, trials.getLast? = some t ∧ t.Exhausted

/-- If the run fails, it is because of a trial that is exhausted. -/
def Honoured (env : Agents ω) (engine : WorkflowEngine) (runId : WorkflowRunId) (run : WorkflowRun)
    (workflow : Definition) (w : ω) : Prop :=
  ∀ e, (executeRun env engine runId w).1 = .error e →
    EndsExhausted (runTrials env runId workflow.steps 0 (startOf engine runId run w))

/-! ## Steps that honour their error mode -/

variable {env : Agents ω} {runId : WorkflowRunId} {step : WorkflowStep} {agentId : AgentId}

theorem retryOutcomes_of_error (left : ℕ) :
    ∀ (lastErr : String) (w : ω),
      (retry env step agentId prompt maxRetries left lastErr w).1 = .error e →
      (∀ o ∈ retryOutcomes env step agentId prompt left w, o.failed = true) ∧
        (retryOutcomes env step agentId prompt left w).length = left := by
  induction left with
  | zero => exact fun _ _ _ => ⟨nofun, rfl⟩
  | succ left ih =>
    intro lastErr w h
    rw [retry] at h
    rw [retryOutcomes]
    rcases hsend : env.send w agentId prompt step.timeoutSecs with ⟨outcome, w'⟩
    rw [hsend] at h
    cases outcome with
    | success output inputTokens outputTokens => cases h
    | failure e' =>
      obtain ⟨hall, hlength⟩ := ih _ _ h
      exact ⟨forall_mem_cons.mpr ⟨rfl, hall⟩, congrArg Nat.succ hlength⟩
    | timeout =>
      obtain ⟨hall, hlength⟩ := ih _ _ h
      exact ⟨forall_mem_cons.mpr ⟨rfl, hall⟩, congrArg Nat.succ hlength⟩

/-- **The error mode is honoured** by `execute_step_with_error_mode`. -/
theorem exhausted_of_error (h : (executeStepWithErrorMode env step agentId prompt w).1 = .error e) :
    Trial.Exhausted ⟨step, stepOutcomes env step agentId prompt w⟩ := by
  rw [executeStepWithErrorMode] at h
  rw [Trial.Exhausted, stepOutcomes]
  cases hmode : step.errorMode with
  | fail =>
    rw [hmode] at h
    rcases hsend : env.send w agentId prompt step.timeoutSecs with ⟨outcome, w'⟩
    rw [hsend] at h
    cases outcome with
    | success output inputTokens outputTokens => cases h
    | failure e' => exact ⟨forall_mem_singleton.mpr rfl, rfl⟩
    | timeout => exact ⟨forall_mem_singleton.mpr rfl, rfl⟩
  | skip =>
    rw [hmode] at h
    rcases hsend : env.send w agentId prompt step.timeoutSecs with ⟨outcome, w'⟩
    rw [hsend] at h
    cases outcome <;> cases h
  | retry maxRetries =>
    rw [hmode] at h
    exact retryOutcomes_of_error (maxRetries + 1) _ _ h

variable {ex : Exec ω} {r : String × Exec ω}

theorem endsExhausted_sequentialStep (hagent : (env.resolve ex.world step.agent).isSome)
    (h : sequentialStep env runId step ex = .error r) :
    EndsExhausted (sequentialTrials env step ex) := by
  obtain ⟨⟨agentId, agentName⟩, hagent⟩ := Option.isSome_iff_exists.mp hagent
  rw [sequentialStep, resolveAgent, hagent] at h
  dsimp only [bind, Except.bind] at h
  rw [sequentialTrials, hagent]
  refine ⟨_, rfl, ?_⟩
  split at h
  · cases h
  · cases h
  · rename_i e durationMs w heq
    exact exhausted_of_error (congrArg Prod.fst heq)

variable {untilLower : String}

theorem endsExhausted_loopIterations (left : ℕ) :
    ∀ (loopIter : ℕ) (ex : Exec ω),
      loopIterations env runId step untilLower agentId agentName left loopIter ex = .error r →
      EndsExhausted
        (iterationTrials env runId step untilLower agentId agentName left loopIter ex) := by
  induction left with
  | zero => intro _ _ h; cases h
  | succ left ih =>
    intro loopIter ex h
    rw [loopIterations] at h
    rw [iterationTrials]
    split at h
    · rename_i output inputTokens outputTokens durationMs w heq
      rw [heq]
      dsimp only at h ⊢
      split at h
      · cases h
      · rename_i hgoes
        obtain ⟨t, hlast, ht⟩ := ih _ _ h
        rw [if_neg hgoes]
        exact ⟨t, by rw [getLast?_cons, hlast]; rfl, ht⟩
    · cases h
    · rename_i e durationMs w heq
      rw [heq]
      exact ⟨_, rfl, exhausted_of_error (congrArg Prod.fst heq)⟩

theorem endsExhausted_loopStep (hagent : (env.resolve ex.world step.agent).isSome)
    (h : loopStep env runId step n untilText ex = .error r) :
    EndsExhausted (loopTrials env runId step n untilText ex) := by
  obtain ⟨⟨agentId, agentName⟩, hagent⟩ := Option.isSome_iff_exists.mp hagent
  rw [loopStep, resolveAgent, hagent] at h
  dsimp only [bind, Except.bind] at h
  rw [loopTrials, hagent]
  split at h
  · rename_i r' heq
    exact endsExhausted_loopIterations n 0 ex heq
  · cases h

def resultTrial (info : (WorkflowStep × AgentId × String) × SendOutcome) : Trial :=
  ⟨info.1.1, [info.2]⟩

def fanOutResults (env : Agents ω) (ex : Exec ω) (infos : List (WorkflowStep × AgentId × String)) :
    List ((WorkflowStep × AgentId × String) × SendOutcome) :=
  let (results, _) := env.sendAll (env.clock ex.world).2 (infos.map fun info =>
    (info.2.1, promptOf env info.1 ex, info.1.timeoutSecs))
  infos.zipIdx.map fun info => (info.1, results info.2)

variable {infos : List (WorkflowStep × AgentId × String)} {group : List WorkflowStep}

theorem fanOutTrials_of_ok (h : resolveAll env ex group = .ok infos) :
    fanOutTrials env group ex = untilFailure ((fanOutResults env ex infos).map resultTrial) := by
  rw [fanOutTrials, h, fanOutResults, map_map]
  rfl

theorem map_fst_of_resolveAll :
    ∀ {group : List WorkflowStep} {infos : List (WorkflowStep × AgentId × String)},
      resolveAll env ex group = .ok infos → infos.map Prod.fst = group := by
  intro group
  induction group with
  | nil =>
    intro infos h
    cases h
    rfl
  | cons step group ih =>
    intro infos h
    obtain ⟨agent, -, hrest⟩ := Outcome.bind_eq_ok.mp h
    obtain ⟨rest, hgroup, heq⟩ := Outcome.bind_eq_ok.mp hrest
    cases heq
    exact congrArg (step :: ·) (ih hgroup)

theorem getLast?_untilFailure (items : List ((WorkflowStep × AgentId × String) × SendOutcome)) :
    ∀ ex : Exec ω, items.foldlM (fanOutResult env runId durationMs) ex = .error r →
      ∃ item ∈ items, item.2.failed = true ∧
        (untilFailure (items.map resultTrial)).getLast? = some (resultTrial item) := by
  induction items with
  | nil => intro ex h; cases h
  | cons item items ih =>
    intro ex h
    rw [foldlM_cons] at h
    obtain ⟨⟨step, agentId, agentName⟩, outcome⟩ := item
    cases outcome with
    | success output inputTokens outputTokens =>
      obtain ⟨item, hitem, hfailed, hlast⟩ := ih _ h
      refine ⟨item, mem_cons_of_mem _ hitem, hfailed, ?_⟩
      rw [map_cons, untilFailure, if_neg (by simp [resultTrial, SendOutcome.failed]),
        getLast?_cons, hlast]
      rfl
    | failure e => exact ⟨_, mem_cons_self, rfl, rfl⟩
    | timeout => exact ⟨_, mem_cons_self, rfl, rfl⟩

/-- A fan-out step asks for what is done to it: `fail`, or `retry` without a retry. -/
def FailsAtOnce (step : WorkflowStep) : Prop :=
  step.errorMode = .fail ∨ step.errorMode = .retry 0

theorem exhausted_resultTrial {info : (WorkflowStep × AgentId × String) × SendOutcome}
    (hfailed : info.2.failed = true) :
    (resultTrial info).Exhausted ↔ FailsAtOnce info.1.1 := by
  have hall : ∀ o ∈ (resultTrial info).outcomes, o.failed = true :=
    forall_mem_singleton.mpr hfailed
  rw [Trial.Exhausted, and_iff_right hall, FailsAtOnce]
  show (match info.1.1.errorMode with
    | .fail => 1 = 1
    | .skip => False
    | .retry maxRetries => 1 = maxRetries + 1) ↔ _
  cases info.1.1.errorMode with
  | fail => simp
  | skip => simp
  | retry maxRetries => simp [eq_comm]

theorem endsExhausted_fanOutStep (hagents : ∀ s ∈ group, (env.resolve ex.world s.agent).isSome)
    (hmodes : ∀ s ∈ group, FailsAtOnce s) (h : fanOutStep env runId group ex = .error r) :
    EndsExhausted (fanOutTrials env group ex) := by
  obtain ⟨infos, hinfos⟩ := resolveAll_eq_ok hagents
  rw [fanOutStep, hinfos] at h
  obtain ⟨item, hitem, hfailed, hlast⟩ := getLast?_untilFailure (fanOutResults env ex infos) _ h
  refine ⟨resultTrial item, by rw [fanOutTrials_of_ok hinfos, hlast], ?_⟩
  have hmem : item.1.1 ∈ group := by
    rw [← map_fst_of_resolveAll hinfos]
    have hinfo := mem_map_of_mem (f := Prod.fst) hitem
    rw [fanOutResults, map_map, Function.comp_def, zipIdx_map_fst] at hinfo
    exact mem_map_of_mem hinfo
  exact (exhausted_resultTrial hfailed).mpr (hmodes _ hmem)

variable {steps : List WorkflowStep} {i : ℕ}

theorem mode_of_mem_fanOutGroup (hi : i < steps.length) (hmode : steps[i].mode = .fanOut)
    (hs : s ∈ fanOutGroup steps i) : s.mode = .fanOut := by
  rw [fanOutGroup, drop_eq_getElem_cons hi] at hs
  rcases mem_append.mp hs with hfirst | hrest
  · rw [mem_singleton.mp hfirst, hmode]
  · simpa using mem_takeWhile_imp hrest

/-- **One round**: if it fails, the trial that made it fail is exhausted. -/
theorem endsExhausted_runStep (hi : i < steps.length)
    (hagents : AgentsFound env steps i steps[i] ex)
    (hmodes : ∀ s ∈ steps, s.mode = .fanOut → FailsAtOnce s)
    (h : runStep env runId steps i steps[i] ex = .error r) :
    EndsExhausted (roundTrials env runId steps i steps[i] ex) := by
  rw [AgentsFound] at hagents
  rw [runStep] at h
  rw [roundTrials]
  cases hmode : steps[i].mode with
  | sequential =>
    rw [hmode] at h hagents
    exact endsExhausted_sequentialStep hagents h
  | fanOut =>
    rw [hmode] at h hagents
    exact endsExhausted_fanOutStep hagents (fun s hs =>
      hmodes s (mem_of_mem_fanOutGroup hs) (mode_of_mem_fanOutGroup hi hmode hs)) h
  | collect =>
    rw [hmode] at h
    cases h
  | conditional condition =>
    rw [hmode] at h hagents
    dsimp only at h ⊢
    split_ifs at h ⊢ with hmet
    exact endsExhausted_sequentialStep (hagents hmet) h
  | loop n untilText =>
    rw [hmode] at h hagents
    exact endsExhausted_loopStep hagents h

theorem EndsExhausted.append_left (h : EndsExhausted trials) (before : List Trial) :
    EndsExhausted (before ++ trials) := by
  obtain ⟨t, hlast, ht⟩ := h
  exact ⟨t, by rw [getLast?_append, hlast]; rfl, ht⟩

theorem runTrials_of_error (hi : i < steps.length)
    (h : runStep env runId steps i steps[i] ex = .error r) :
    runTrials env runId steps i ex = roundTrials env runId steps i steps[i] ex := by
  rw [runTrials, dif_pos hi, h, append_nil]

theorem runTrials_of_ok (hi : i < steps.length)
    (h : runStep env runId steps i steps[i] ex = .ok ex') :
    runTrials env runId steps i ex = roundTrials env runId steps i steps[i] ex ++
      runTrials env runId steps (nextIndex steps i steps[i]) ex' := by
  rw [runTrials, dif_pos hi, h]

/-- **The whole loop**, by induction along it. -/
theorem endsExhausted_runSteps (hagents : AllAgentsFound env runId steps (i, ex))
    (hmodes : ∀ s ∈ steps, s.mode = .fanOut → FailsAtOnce s)
    (h : runSteps env runId steps i ex = .error r) :
    EndsExhausted (runTrials env runId steps i ex) := by
  fun_induction runSteps env runId steps i ex with
  | case1 i ex hi r' hr =>
    rw [allAgentsFound_iff_of_error (getElem?_eq_getElem hi) hr] at hagents
    rw [runTrials_of_error hi hr]
    exact endsExhausted_runStep hi hagents hmodes hr
  | case2 i ex hi ex' hr ih =>
    rw [allAgentsFound_iff_of_ok (getElem?_eq_getElem hi) hr] at hagents
    rw [runTrials_of_ok hi hr]
    exact (ih hagents.2 h).append_left _
  | case3 i ex hi => cases h

/-! ## A message that is not answered -/

/-- In one fan-out the message at position `k` fails; the state counts the fan-outs before it. -/
def failingAt (k : ℕ) : Agents ℕ where
  resolve _ _ := some (⟨"agent1"⟩, "agent1")
  send w _ _ _ := (.success "" 0 0, w)
  sendAll w _ :=
    match w with
    | 0 => (fun pos => if pos = k then .failure "" else .success "" 0 0, 0)
    | w + 1 => (fun _ => .success "" 0 0, w)
  clock w := (0, w)
  order _ := .stored _
  toLowercase := id

variable {k : ℕ}

variable (step)

theorem timedStep_failingAt (agentId : AgentId) (prompt : String) (w : ℕ) :
    timedStep (failingAt k) step agentId prompt w = (.ok (some ("", 0, 0)), 0, w) := by
  have hstep : executeStepWithErrorMode (failingAt k) step agentId prompt w =
      (.ok (some ("", 0, 0)), w) := by
    rw [executeStepWithErrorMode]
    cases step.errorMode <;> rfl
  show ((executeStepWithErrorMode (failingAt k) step agentId prompt w).1, 0,
    (executeStepWithErrorMode (failingAt k) step agentId prompt w).2) = _
  rw [hstep]

theorem world_bindOutput (output : String) (ex : Exec ω) :
    (bindOutput step output ex).world = ex.world := by
  rw [bindOutput]
  split <;> rfl

theorem world_pushResult (runId : WorkflowRunId) (result : StepResult) (ex : Exec ω) :
    (pushResult runId result ex).world = ex.world := by
  rw [pushResult, modifyRun]
  split <;> rfl

theorem world_completeStep (runId : WorkflowRunId) (step : WorkflowStep) (result : StepResult)
    (ex : Exec ω) : (completeStep runId step result ex).world = ex.world :=
  (world_bindOutput _ _ _).trans (world_pushResult _ _ _)

/-- The step succeeds, and the state of the agents is as given. -/
abbrev Succeeds (w : ℕ) (x : Except (String × Exec ℕ) (Exec ℕ)) : Prop :=
  Outcome (fun _ => False) (fun ex => ex.world = w) x

theorem succeeds_sequentialStep (ex : Exec ℕ) :
    Succeeds ex.world (sequentialStep (failingAt k) runId step ex) := by
  rw [sequentialStep, resolveAgent]
  dsimp only [failingAt, bind, Except.bind]
  rw [← failingAt, timedStep_failingAt]
  exact world_completeStep _ _ _ _

variable {step}

theorem succeeds_loopIterations (left : ℕ) :
    ∀ (loopIter : ℕ) (ex : Exec ℕ), Succeeds ex.world
      (loopIterations (failingAt k) runId step untilLower agentId agentName left loopIter ex) := by
  induction left with
  | zero => exact fun _ ex => rfl
  | succ left ih =>
    intro loopIter ex
    rw [loopIterations, timedStep_failingAt]
    dsimp only
    split
    · exact world_pushResult _ _ _
    · exact (ih (loopIter + 1) _).imp (fun _ => id) fun ex' h => h.trans (world_pushResult _ _ _)

theorem succeeds_runStep {steps : List WorkflowStep} {i : ℕ} {step : WorkflowStep}
    (hmode : step.mode ≠ .fanOut) (ex : Exec ℕ) :
    Succeeds ex.world (runStep (failingAt k) runId steps i step ex) := by
  rw [runStep]
  cases hstep : step.mode with
  | sequential => exact succeeds_sequentialStep step ex
  | fanOut => exact absurd hstep hmode
  | collect => exact world_bindOutput _ _ _
  | conditional condition =>
    dsimp only
    split
    · exact succeeds_sequentialStep step ex
    · rfl
  | loop n untilText =>
    exact (succeeds_loopIterations n 0 ex).bind fun _ h => (world_bindOutput _ _ _).trans h

theorem succeeds_foldlM {durationMs : ℕ}
    {items : List ((WorkflowStep × AgentId × String) × SendOutcome)}
    (hitems : ∀ item ∈ items, item.2.failed = false) (ex : Exec ℕ) :
    Succeeds ex.world (items.foldlM (fanOutResult (failingAt k) runId durationMs) ex) := by
  refine Outcome.foldlM items (fun ex' item hitem hworld => ?_) rfl
  have hanswered := hitems item hitem
  obtain ⟨⟨step, agentId, agentName⟩, outcome⟩ := item
  cases outcome with
  | success output inputTokens outputTokens => exact (world_completeStep _ _ _ _).trans hworld
  | failure e => cases hanswered
  | timeout => cases hanswered

theorem succeeds_fanOutStep {w : ℕ} {ex : Exec ℕ} (hworld : ex.world = w + 1)
    (group : List WorkflowStep) : Succeeds w (fanOutStep (failingAt k) runId group ex) := by
  obtain ⟨infos, hinfos⟩ := @resolveAll_eq_ok ℕ (failingAt k) ex group fun _ _ => rfl
  obtain ⟨world, runs, currentInput, allOutputs, vars⟩ := ex
  cases hworld
  rw [fanOutStep, hinfos]
  refine succeeds_foldlM (fun item hitem => ?_) ⟨w, runs, currentInput, allOutputs, vars⟩
  obtain ⟨info, -, rfl⟩ := mem_map.mp hitem
  rfl

theorem untilFailure_append {before after : List Trial} {t : Trial}
    (hbefore : ∀ t ∈ before, t.outcomes.any SendOutcome.failed = false)
    (ht : t.outcomes.any SendOutcome.failed = true) :
    untilFailure (before ++ t :: after) = before ++ [t] := by
  induction before with
  | nil => rw [nil_append, untilFailure, if_pos ht, nil_append]
  | cons b before ih =>
    obtain ⟨hb, hbefore⟩ := forall_mem_cons.mp hbefore
    rw [cons_append, untilFailure, if_neg (by simp [hb]), ih hbefore, cons_append]

theorem fanOutResults_failingAt {ex : Exec ℕ} (hworld : ex.world = 0)
    {info : WorkflowStep × AgentId × String} (hinfo : infos[k]? = some info) :
    ∃ before after, fanOutResults (failingAt k) ex infos = before ++ (info, .failure "") :: after ∧
      ∀ item ∈ before, item.2.failed = false := by
  obtain ⟨hk, rfl⟩ := List.getElem?_eq_some_iff.mp hinfo
  have hsplit : infos = infos.take k ++ infos[k] :: infos.drop (k + 1) := by
    rw [← drop_eq_getElem_cons hk, take_append_drop]
  have hlength : (infos.take k).length = k := length_take_of_le hk.le
  have hresults : fanOutResults (failingAt k) ex infos = infos.zipIdx.map fun info =>
      (info.1, if info.2 = k then .failure "" else .success "" 0 0) := by
    rw [fanOutResults]
    dsimp only [failingAt]
    rw [hworld]
  have hzip : infos.zipIdx = (infos.take k).zipIdx ++
      (infos[k], k) :: (infos.drop (k + 1)).zipIdx (k + 1) := by
    conv_lhs => rw [hsplit]
    rw [zipIdx_append, hlength, Nat.zero_add, zipIdx_cons]
  rw [hresults, hzip, map_append, map_cons, if_pos rfl]
  refine ⟨_, _, rfl, fun item hitem => ?_⟩
  obtain ⟨⟨info, pos⟩, hmem, rfl⟩ := mem_map.mp hitem
  have hpos := (mem_zipIdx hmem).2.1
  rw [Nat.zero_add, hlength] at hpos
  rw [if_neg hpos.ne]
  rfl

/-- In the fan-out with the failure, the step at position `k` makes the run fail. -/
theorem fails_fanOutStep {ex : Exec ℕ} (hworld : ex.world = 0) {group : List WorkflowStep}
    {s : WorkflowStep} (hs : group[k]? = some s) :
    (∃ r, fanOutStep (failingAt k) runId group ex = .error r) ∧
      (fanOutTrials (failingAt k) group ex).getLast? = some ⟨s, [.failure ""]⟩ := by
  obtain ⟨infos, hinfos⟩ := @resolveAll_eq_ok ℕ (failingAt k) ex group fun _ _ => rfl
  rw [← map_fst_of_resolveAll hinfos, getElem?_map] at hs
  obtain ⟨info, hinfo, rfl⟩ := Option.map_eq_some_iff.mp hs
  obtain ⟨before, after, hresults, hbefore⟩ := fanOutResults_failingAt hworld hinfo
  obtain ⟨world, runs, currentInput, allOutputs, vars⟩ := ex
  cases hworld
  refine ⟨?_, ?_⟩
  · have hstep : fanOutStep (failingAt k) runId group ⟨0, runs, currentInput, allOutputs, vars⟩ =
        (fanOutResults (failingAt k) ⟨0, runs, currentInput, allOutputs, vars⟩ infos).foldlM
          (fanOutResult (failingAt k) runId 0) ⟨0, runs, currentInput, allOutputs, vars⟩ := by
      rw [fanOutStep, hinfos]
      rfl
    rw [hstep, hresults, foldlM_append]
    obtain ⟨ex', hfold, -⟩ := (@succeeds_foldlM runId k 0 before hbefore
      ⟨0, runs, currentInput, allOutputs, vars⟩).exists_ok
    rw [hfold]
    exact ⟨_, rfl⟩
  · rw [fanOutTrials_of_ok hinfos, hresults, map_append, map_cons,
      untilFailure_append _ rfl, getLast?_concat]
    · rfl
    · intro t ht
      obtain ⟨item, hitem, rfl⟩ := mem_map.mp ht
      simpa [resultTrial] using hbefore item hitem

theorem getElem?_fanOutGroup (hi : i < steps.length) (hp : p < (fanOutGroup steps i).length) :
    (fanOutGroup steps i)[p]? = steps[i + p]? := by
  have hrest : (steps.drop (i + 1)).takeWhile (fun s => s.mode = .fanOut) ++
      (steps.drop (i + 1)).dropWhile (fun s => s.mode = .fanOut) = steps.drop (i + 1) :=
    takeWhile_append_dropWhile
  have hgroup : fanOutGroup steps i ++
      (steps.drop (i + 1)).dropWhile (fun s => s.mode = .fanOut) = steps.drop i := by
    rw [fanOutGroup, append_assoc, hrest, drop_eq_getElem_cons hi]
    rfl
  rw [← getElem?_drop, ← hgroup, getElem?_append_left hp]

theorem nextIndex_fanOut (hi : i < steps.length) (hmode : steps[i].mode = .fanOut) :
    nextIndex steps i steps[i] = i + (fanOutGroup steps i).length := by
  rw [nextIndex, hmode, fanOutGroup, drop_eq_getElem_cons hi, length_append]
  exact Nat.add_assoc _ _ _

theorem nextIndex_of_ne {steps : List WorkflowStep} {i : ℕ} {step : WorkflowStep}
    (hmode : step.mode ≠ .fanOut) : nextIndex steps i step = i + 1 := by
  rw [nextIndex]
  split
  · exact absurd ‹_› hmode
  · rfl

/-- The run from `i` on fails, and the last trial is that of the step `s`. -/
def FailsBy (k : ℕ) (runId : WorkflowRunId) (steps : List WorkflowStep) (i : ℕ) (ex : Exec ℕ)
    (s : WorkflowStep) : Prop :=
  (∃ r, runSteps (failingAt k) runId steps i ex = .error r) ∧
    (runTrials (failingAt k) runId steps i ex).getLast? = some ⟨s, [.failure ""]⟩

theorem FailsBy.of_ok {ex : Exec ℕ} (hi : i < steps.length)
    (hr : runStep (failingAt k) runId steps i steps[i] ex = .ok ex')
    (h : FailsBy k runId steps (nextIndex steps i steps[i]) ex' s) :
    FailsBy k runId steps i ex s := by
  obtain ⟨⟨r, hsteps⟩, hlast⟩ := h
  refine ⟨⟨r, ?_⟩, ?_⟩
  · rw [runSteps, dif_pos hi, hr]
    exact hsteps
  · rw [runTrials_of_ok hi hr, getLast?_append, hlast]
    rfl

/-- **A fan-out step can make the run fail with its first message.** -/
theorem exists_failsBy (runId : WorkflowRunId) (hj : j < steps.length)
    (hfan : steps[j].mode = .fanOut) (i : ℕ) (hij : i ≤ j) :
    ∃ w k, ∀ ex : Exec ℕ, ex.world = w → FailsBy k runId steps i ex steps[j] := by
  induction hdist : j - i using Nat.strong_induction_on generalizing i with
  | _ dist ih =>
    have hi : i < steps.length := by omega
    have hlt := lt_nextIndex steps i steps[i]
    by_cases hmode : steps[i].mode = .fanOut
    · have hnext := nextIndex_fanOut hi hmode
      have hround : ∀ env : Agents ℕ, ∀ ex, runStep env runId steps i steps[i] ex =
          fanOutStep env runId (fanOutGroup steps i) ex := by
        intro env ex
        rw [runStep, hmode]
      rcases Nat.lt_or_ge j (nextIndex steps i steps[i]) with hin | hout
      · -- the step is in this fan-out
        refine ⟨0, j - i, fun ex hworld => ?_⟩
        have hs : (fanOutGroup steps i)[j - i]? = some steps[j] := by
          rw [getElem?_fanOutGroup hi (by omega), Nat.add_sub_cancel' hij,
            getElem?_eq_getElem hj]
        obtain ⟨⟨r, hr⟩, hlast⟩ := @fails_fanOutStep runId (j - i) ex hworld _ _ hs
        rw [← hround] at hr
        refine ⟨⟨r, by rw [runSteps, dif_pos hi, hr]⟩, ?_⟩
        rw [runTrials_of_error hi hr, roundTrials, hmode]
        exact hlast
      · obtain ⟨w, k, hfails⟩ := ih (j - nextIndex steps i steps[i]) (by omega) _ hout rfl
        refine ⟨w + 1, k, fun ex hworld => ?_⟩
        obtain ⟨ex', hr, hworld'⟩ :=
          (@succeeds_fanOutStep runId k w ex hworld (fanOutGroup steps i)).exists_ok
        rw [← hround] at hr
        exact FailsBy.of_ok hi hr (hfails ex' hworld')
    · have hne : i ≠ j := by
        rintro rfl
        exact hmode hfan
      have hnext := @nextIndex_of_ne steps i steps[i] hmode
      obtain ⟨w, k, hfails⟩ := ih (j - nextIndex steps i steps[i]) (by omega) _ (by omega) rfl
      refine ⟨w, k, fun ex hworld => ?_⟩
      obtain ⟨ex', hr, hworld'⟩ := (@succeeds_runStep runId k steps i _ hmode ex).exists_ok
      exact FailsBy.of_ok hi hr (hfails ex' (hworld'.trans hworld))

/-! ## The error modes of a workflow -/

/-- The error modes of a workflow are honoured in every run in which all agents are found. -/
def ErrorModesHonoured (workflow : Definition) : Prop :=
  ∀ (ω : Type) (env : Agents ω) (engine : WorkflowEngine) (runId : WorkflowRunId)
    (run : WorkflowRun) (w : ω), engine.runs.lookup runId = some run →
    engine.workflows.lookup run.workflowId = some workflow →
    AllAgentsFound env runId workflow.steps (0, startOf engine runId run w) →
    Honoured env engine runId run workflow w

theorem executeRun_fst (hrun : engine.runs.lookup runId = some run)
    (hwf : engine.workflows.lookup run.workflowId = some workflow) :
    (executeRun env engine runId w).1 =
      (finishRun env runId
        (runSteps env runId workflow.steps 0 (startOf engine runId run w))).1 := by
  rw [executeRun, hrun]
  dsimp only
  rw [hwf]

def oneRun (workflow : Definition) : WorkflowEngine where
  workflows := AList.singleton ⟨1⟩ workflow
  runs := AList.singleton ⟨7⟩ ⟨⟨7⟩, ⟨1⟩, workflow.name, "", .pending, [], none, none, 0, none⟩

/-- **A step's error mode is honoured**, if no fan-out step asks for more than to fail. -/
theorem errorModes_honoured_iff (workflow : Definition) :
    ErrorModesHonoured workflow ↔
      ∀ s ∈ workflow.steps, s.mode = .fanOut → s.errorMode = .fail ∨ s.errorMode = .retry 0 := by
  refine ⟨fun h s hs hfan => ?_, fun h ω env engine runId run w hrun hwf hagents e he => ?_⟩
  · obtain ⟨j, hj, rfl⟩ := mem_iff_getElem.mp hs
    obtain ⟨w, k, hfails⟩ := exists_failsBy ⟨7⟩ hj hfan 0 (Nat.zero_le _)
    have hhonoured := h ℕ (failingAt k) (oneRun workflow) ⟨7⟩ _ w rfl rfl
      (allAgentsFound_of_resolve (fun _ _ _ => rfl) _)
    obtain ⟨⟨r, hr⟩, hlast⟩ := hfails (startOf (oneRun workflow) ⟨7⟩ _ w) rfl
    have herror : (executeRun (failingAt k) (oneRun workflow) ⟨7⟩ w).1 = .error r.1 := by
      rw [executeRun_fst rfl rfl, hr]
      rfl
    obtain ⟨t, ht, hexhausted⟩ := hhonoured _ herror
    cases hlast.symm.trans ht
    exact (@exhausted_resultTrial ((workflow.steps[j], ⟨""⟩, ""), .failure "") rfl).mp hexhausted
  · rw [executeRun_fst hrun hwf] at he
    cases hsteps : runSteps env runId workflow.steps 0 (startOf engine runId run w) with
    | ok ex =>
      rw [hsteps] at he
      cases he
    | error r => exact endsExhausted_runSteps hagents h hsteps

def oneFanOut (errorMode : ErrorMode) : Definition :=
  ⟨⟨1⟩, "w", [⟨"ask", .byName "agent1", "", .fanOut, 120, errorMode, none⟩]⟩

/-- A fan-out step that should be skipped or retried makes the run fail. -/
theorem fanOut_step_not_skipped :
    (executeRun (failingAt 0) (oneRun (oneFanOut .skip)) ⟨7⟩ 0).1 =
        .error "FanOut step 'ask' failed: " ∧
      (executeRun (failingAt 0) (oneRun (oneFanOut (.retry 3))) ⟨7⟩ 0).1 =
        .error "FanOut step 'ask' failed: " := by
  decide +kernel

end AlloyAgent.Workflow
