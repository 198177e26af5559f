import AlloyAgent.Transition
import AlloyAgent.Workflow

/-!
# How a workflow run ends

`execute_run` has more than ten exits. A run is *settled* if its record says what the caller was
told: completed with the output, or failed with the error, and in both cases with a time.

* `Keeps`: what holds between rounds;
* `executeRun_settled_iff`: the runs that are settled.
-/

namespace AlloyAgent

open List

namespace Workflow

open Transition

variable {ω : Type} {env : Agents ω} {runId : WorkflowRunId}

/-- The run is stored and in state running. -/
def Live (runId : WorkflowRunId) (ex : Exec ω) : Prop :=
  ∃ run, ex.runs.lookup runId = some run ∧ run.state = .running

/-- The run has been marked as failed with the error that is returned. -/
def MarkedFailed (runId : WorkflowRunId) (r : String × Exec ω) : Prop :=
  ∃ run, r.2.runs.lookup runId = some run ∧ run.state = .failed ∧ run.error = some r.1 ∧
    run.completedAt.isSome

/-- The run stays live, or is marked. -/
abbrev Handled (runId : WorkflowRunId) (x : Except (String × Exec ω) (Exec ω)) : Prop :=
  Outcome (MarkedFailed runId) (Live runId) x

/-- An error is returned, and the run is still live. -/
def Abandoned {α : Type} (runId : WorkflowRunId) (x : Except (String × Exec ω) α) : Prop :=
  ∃ e ex, x = .error (e, ex) ∧ Live runId ex

variable {ex : Exec ω}

theorem Live.pushResult (h : Live runId ex) (result : StepResult) :
    Live runId (pushResult runId result ex) := by
  obtain ⟨run, hrun, hstate⟩ := h
  rw [Workflow.pushResult, modifyRun, hrun]
  exact ⟨_, AList.lookup_insert _, hstate⟩

theorem runs_bindOutput (step : WorkflowStep) (output : String) (ex : Exec ω) :
    (bindOutput step output ex).runs = ex.runs := by
  rw [bindOutput]
  split <;> rfl

theorem Live.of_runs (h : Live runId ex) (hruns : ex'.runs = ex.runs) : Live runId ex' := by
  obtain ⟨run, hrun, hstate⟩ := h
  exact ⟨run, hruns ▸ hrun, hstate⟩

theorem handled_failRun (h : Live runId ex) (e : String) :
    Handled runId (failRun env runId e ex) := by
  obtain ⟨run, hrun, -⟩ := h
  rw [failRun, stampRun, hrun]
  exact ⟨_, AList.lookup_insert _, rfl, rfl, rfl⟩

/-- What holds between rounds, and of the error and the state with which a run ends. -/
structure Keeps (env : Agents ω) (runId : WorkflowRunId) (E : String × Exec ω → Prop)
    (P : Exec ω → Prop) : Prop where
  of_runs : ∀ {ex ex' : Exec ω}, P ex → ex'.runs = ex.runs → P ex'
  push : ∀ {ex : Exec ω} (result : StepResult), P ex → P (pushResult runId result ex)
  fail : ∀ {ex : Exec ω} (e : String), P ex → Outcome E P (failRun env runId e ex)

section Keeps

variable {E : String × Exec ω → Prop} {P : Exec ω → Prop} {step : WorkflowStep}

theorem outcome_resolveAgent (hagent : (env.resolve ex.world step.agent).isSome ∨ ∀ e, E (e, ex))
    {f : AgentId × String → Except (String × Exec ω) (Exec ω)}
    (hf : ∀ agent, Outcome E P (f agent)) :
    Outcome E P (resolveAgent env step ex >>= f) := by
  rw [resolveAgent]
  cases hfound : env.resolve ex.world step.agent with
  | some agent => exact hf agent
  | none =>
    rcases hagent with hsome | hend
    · rw [hfound] at hsome
      cases hsome
    · exact hend _

theorem outcome_resolveAll
    (hagents : (∀ s ∈ group, (env.resolve ex.world s.agent).isSome) ∨ ∀ e, E (e, ex)) :
    Outcome E (fun _ => True) (resolveAll env ex group) := by
  induction group with
  | nil => trivial
  | cons step group ih =>
    have hrest := ih (hagents.imp_left fun h => (forall_mem_cons.mp h).2)
    rw [resolveAll, resolveAgent]
    cases hfound : env.resolve ex.world step.agent with
    | some agent => exact hrest.bind fun _ _ => trivial
    | none =>
      rcases hagents with hsome | hend
      · have hhead := hsome step mem_cons_self
        rw [hfound] at hhead
        cases hhead
      · exact hend _

namespace Keeps

variable (hk : Keeps env runId E P)
include hk

theorem completeStep (step : WorkflowStep) (result : StepResult) (h : P ex) :
    P (completeStep runId step result ex) :=
  hk.of_runs (hk.push result h) (runs_bindOutput _ _ _)

theorem sequentialStep (h : P ex)
    (hagent : (env.resolve ex.world step.agent).isSome ∨ ∀ e, E (e, ex)) :
    Outcome E P (sequentialStep env runId step ex) := by
  refine outcome_resolveAgent hagent fun agent => ?_
  dsimp only
  split
  · exact hk.completeStep _ _ (hk.of_runs h rfl)
  · exact hk.of_runs h rfl
  · exact hk.fail _ (hk.of_runs h rfl)

theorem fanOutStep (h : P ex)
    (hagents : (∀ s ∈ group, (env.resolve ex.world s.agent).isSome) ∨ ∀ e, E (e, ex)) :
    Outcome E P (fanOutStep env runId group ex) := by
  refine (outcome_resolveAll hagents).bind fun infos _ => ?_
  refine Outcome.foldlM _ (fun ex info _ hex => ?_) (hk.of_runs h rfl)
  obtain ⟨⟨step, agentId, agentName⟩, outcome⟩ := info
  cases outcome with
  | success output inputTokens outputTokens => exact hk.completeStep _ _ hex
  | failure e => exact hk.fail _ hex
  | timeout => exact hk.fail _ hex

theorem loopIterations (left : ℕ) :
    ∀ (loopIter : ℕ) {ex : Exec ω}, P ex → Outcome E P
      (loopIterations env runId step untilLower agentId agentName left loopIter ex) := by
  induction left with
  | zero => intro loopIter ex h; exact h
  | succ left ih =>
    intro loopIter ex h
    rw [Workflow.loopIterations]
    split
    · rename_i output inputTokens outputTokens durationMs w _
      have hworld : P { ex with world := w } := hk.of_runs h rfl
      split
      · exact hk.of_runs (hk.push _ hworld) rfl
      · exact ih _ (hk.of_runs (hk.push _ hworld) rfl)
    · exact hk.of_runs h rfl
    · exact hk.fail _ (hk.of_runs h rfl)

theorem loopStep (h : P ex) (hagent : (env.resolve ex.world step.agent).isSome ∨ ∀ e, E (e, ex)) :
    Outcome E P (loopStep env runId step n untilText ex) := by
  refine outcome_resolveAgent hagent fun agent => ?_
  exact (hk.loopIterations n 0 h).bind fun ex' h' => hk.of_runs h' (runs_bindOutput _ _ _)

end Keeps

end Keeps

theorem abandoned_resolveAgent {step : WorkflowStep} (h : Live runId ex)
    (hagent : env.resolve ex.world step.agent = none) :
    Abandoned runId (resolveAgent env step ex) :=
  ⟨_, ex, by rw [resolveAgent, hagent], h⟩

theorem Abandoned.bind {α β : Type} {x : Except (String × Exec ω) α}
    (h : Abandoned runId x) (f : α → Except (String × Exec ω) β) : Abandoned runId (x >>= f) := by
  obtain ⟨e, ex, rfl, hlive⟩ := h
  exact ⟨e, ex, rfl, hlive⟩

theorem resolveAll_eq_ok {ex : Exec ω} :
    ∀ {group : List WorkflowStep}, (∀ step ∈ group, (env.resolve ex.world step.agent).isSome) →
      ∃ infos, resolveAll env ex group = .ok infos := by
  intro group
  induction group with
  | nil => intro _; exact ⟨[], rfl⟩
  | cons step group ih =>
    intro h
    obtain ⟨hhead, htail⟩ := forall_mem_cons.mp h
    obtain ⟨agent, hagent⟩ := Option.isSome_iff_exists.mp hhead
    obtain ⟨infos, hinfos⟩ := ih htail
    exact ⟨_, Outcome.bind_eq_ok.mpr ⟨agent, by rw [resolveAgent, hagent],
      Outcome.bind_eq_ok.mpr ⟨infos, hinfos, rfl⟩⟩⟩

theorem abandoned_resolveAll (hlive : Live runId ex) :
    ∀ {group : List WorkflowStep},
      (∃ step ∈ group, env.resolve ex.world step.agent = none) →
      Abandoned runId (resolveAll env ex group) := by
  intro group
  induction group with
  | nil => rintro ⟨step, hstep, -⟩; cases hstep
  | cons step group ih =>
    rintro ⟨step', hmem, hnone⟩
    rw [resolveAll]
    cases hagent : env.resolve ex.world step.agent with
    | none => exact (abandoned_resolveAgent hlive hagent).bind _
    | some agent =>
      have hrest : ∃ step ∈ group, env.resolve ex.world step.agent = none := by
        rcases mem_cons.mp hmem with rfl | hmem
        · simp [hagent] at hnone
        · exact ⟨step', hmem, hnone⟩
      have hresolve : resolveAgent env step ex = .ok agent := by rw [resolveAgent, hagent]
      rw [hresolve]
      exact (ih hrest).bind _

/-! ## The steps of a workflow -/

/-- Every agent that the step at `i` is about to ask is found. -/
def AgentsFound (env : Agents ω) (steps : List WorkflowStep) (i : ℕ) (step : WorkflowStep)
    (ex : Exec ω) : Prop :=
  match step.mode with
  | .sequential => (env.resolve ex.world step.agent).isSome
  | .fanOut => ∀ s ∈ fanOutGroup steps i, (env.resolve ex.world s.agent).isSome
  | .collect => True
  | .conditional condition =>
    conditionMet env condition ex = true → (env.resolve ex.world step.agent).isSome
  | .loop _ _ => (env.resolve ex.world step.agent).isSome

variable {steps : List WorkflowStep} {i : ℕ} {step : WorkflowStep}

theorem Keeps.runStep {E : String × Exec ω → Prop} {P : Exec ω → Prop} (hk : Keeps env runId E P)
    (h : P ex) (hagents : AgentsFound env steps i step ex ∨ ∀ e, E (e, ex)) :
    Outcome E P (runStep env runId steps i step ex) := by
  rw [AgentsFound] at hagents
  rw [Workflow.runStep]
  cases hmode : step.mode with
  | sequential => rw [hmode] at hagents; exact hk.sequentialStep h hagents
  | fanOut => rw [hmode] at hagents; exact hk.fanOutStep h hagents
  | collect => exact hk.of_runs h (runs_bindOutput _ _ _)
  | conditional condition =>
    rw [hmode] at hagents
    dsimp only
    split
    · rename_i hmet
      exact hk.sequentialStep h (hagents.imp_left fun hfound => hfound hmet)
    · exact h
  | loop n untilText => rw [hmode] at hagents; exact hk.loopStep h hagents

theorem keeps_live : Keeps env runId (MarkedFailed runId) (Live runId) where
  of_runs := Live.of_runs
  push result h := h.pushResult result
  fail e h := handled_failRun h e

theorem abandoned_sequentialStep (h : Live runId ex)
    (hagent : ¬ (env.resolve ex.world step.agent).isSome) :
    Abandoned runId (sequentialStep env runId step ex) :=
  (abandoned_resolveAgent h (by simpa using hagent)).bind _

theorem abandoned_runStep (h : Live runId ex) (hagents : ¬ AgentsFound env steps i step ex) :
    Abandoned runId (runStep env runId steps i step ex) := by
  rw [AgentsFound] at hagents
  rw [runStep]
  cases hmode : step.mode with
  | sequential => rw [hmode] at hagents; exact abandoned_sequentialStep h hagents
  | fanOut =>
    rw [hmode] at hagents
    push Not at hagents
    obtain ⟨s, hs, hnone⟩ := hagents
    exact (abandoned_resolveAll h ⟨s, hs, by simpa using hnone⟩).bind _
  | collect => rw [hmode] at hagents; exact absurd trivial hagents
  | conditional condition =>
    rw [hmode] at hagents
    push Not at hagents
    dsimp only
    rw [if_pos hagents.1]
    exact abandoned_sequentialStep h hagents.2
  | loop n untilText =>
    rw [hmode] at hagents
    exact (abandoned_resolveAgent h (by simpa using hagents)).bind _

/-- One round of the `while` loop, from index and state to index and state. -/
def Next (env : Agents ω) (runId : WorkflowRunId) (steps : List WorkflowStep)
    (a b : ℕ × Exec ω) : Prop :=
  ∃ step, steps[a.1]? = some step ∧ runStep env runId steps a.1 step a.2 = .ok b.2 ∧
    b.1 = nextIndex steps a.1 step

/-- Every step that the loop reaches from `a` finds its agents. -/
def AllAgentsFound (env : Agents ω) (runId : WorkflowRunId) (steps : List WorkflowStep)
    (a : ℕ × Exec ω) : Prop :=
  Always (Next env runId steps)
    (fun b => ∀ step, steps[b.1]? = some step → AgentsFound env steps b.1 step b.2) a

theorem mem_of_mem_fanOutGroup (h : s ∈ fanOutGroup steps i) : s ∈ steps := by
  rw [fanOutGroup, mem_append] at h
  rcases h with h | h
  · exact mem_of_mem_drop (mem_of_mem_take h)
  · exact mem_of_mem_drop ((takeWhile_sublist _).subset h)

theorem allAgentsFound_of_resolve (h : ∀ s ∈ steps, ∀ w, (env.resolve w s.agent).isSome)
    (a : ℕ × Exec ω) : AllAgentsFound env runId steps a := by
  intro b _ step hstep
  have hmem := mem_of_getElem? hstep
  rw [AgentsFound]
  cases step.mode with
  | sequential => exact h _ hmem _
  | fanOut => exact fun s hs => h s (mem_of_mem_fanOutGroup hs) _
  | collect => trivial
  | conditional condition => exact fun _ => h _ hmem _
  | loop n untilText => exact h _ hmem _

theorem allAgentsFound_iff_of_ok (hi : steps[i]? = some step)
    (hr : runStep env runId steps i step ex = .ok ex') :
    AllAgentsFound env runId steps (i, ex) ↔ AgentsFound env steps i step ex ∧
      AllAgentsFound env runId steps (nextIndex steps i step, ex') := by
  rw [AllAgentsFound, always_iff_of_next (b := (nextIndex steps i step, ex'))]
  · simp [hi, AllAgentsFound]
  · rintro ⟨j, exj⟩
    simp [Next, hi, hr, eq_comm, and_comm]

theorem allAgentsFound_iff_of_error (hi : steps[i]? = some step)
    (hr : runStep env runId steps i step ex = .error r) :
    AllAgentsFound env runId steps (i, ex) ↔ AgentsFound env steps i step ex := by
  rw [AllAgentsFound, always_iff_of_last]
  · simp [hi]
  · simp [Next, hi, hr]

theorem allAgentsFound_of_end (hi : steps[i]? = none) : AllAgentsFound env runId steps (i, ex) := by
  rw [AllAgentsFound, always_iff_of_last]
  · simp [hi]
  · simp [Next, hi]

theorem runSteps_spec (env : Agents ω) (steps : List WorkflowStep) (i : ℕ) (ex : Exec ω)
    (h : Live runId ex) :
    (AllAgentsFound env runId steps (i, ex) → Handled runId (runSteps env runId steps i ex)) ∧
      (¬ AllAgentsFound env runId steps (i, ex) →
        Abandoned runId (runSteps env runId steps i ex)) := by
  fun_induction runSteps env runId steps i ex with
  | case1 i ex hi r hr =>
    -- the step returns an error, which the loop passes on
    rw [allAgentsFound_iff_of_error (getElem?_eq_getElem hi) hr]
    refine ⟨fun hnow => hr ▸ keeps_live.runStep h (.inl hnow), fun hnow => ?_⟩
    obtain ⟨e, ex', heq, hlive⟩ := abandoned_runStep h hnow
    exact ⟨e, ex', by rw [← hr, heq], hlive⟩
  | case2 i ex hi ex' hr ih =>
    rw [allAgentsFound_iff_of_ok (getElem?_eq_getElem hi) hr]
    by_cases hnow : AgentsFound env steps i steps[i] ex
    · have hlive : Live runId ex' := by
        have hstep := keeps_live.runStep h (.inl hnow)
        rwa [hr] at hstep
      obtain ⟨hok, hbad⟩ := ih hlive
      exact ⟨fun hall => hok hall.2, fun hall => hbad fun hlater => hall ⟨hnow, hlater⟩⟩
    · -- a step without its agent does not go on
      obtain ⟨e, ex'', heq, -⟩ := abandoned_runStep h hnow
      cases hr.symm.trans heq
  | case3 i ex hi =>
    refine ⟨fun _ => h, fun hall => absurd (allAgentsFound_of_end ?_) hall⟩
    exact getElem?_eq_none (Nat.le_of_not_lt hi)

/-- The stored run says what the caller is told. -/
def Settled (runs : Table WorkflowRunId WorkflowRun) (runId : WorkflowRunId)
    (result : Except String String) : Prop :=
  ∃ run, runs.lookup runId = some run ∧ run.completedAt.isSome ∧
    match result with
    | .ok out => run.state = .completed ∧ run.output = some out
    | .error e => run.state = .failed ∧ run.error = some e

theorem Live.not_settled (h : Live runId ex) (e : String) : ¬ Settled ex.runs runId (.error e) := by
  obtain ⟨run, hrun, hstate⟩ := h
  rintro ⟨run', hrun', -, hfailed, -⟩
  cases hrun.symm.trans hrun'
  rw [hstate] at hfailed
  cases hfailed

theorem settled_finishRun (h : Handled runId x) :
    Settled (finishRun env runId x).2.runs runId (finishRun env runId x).1 := by
  cases x with
  | error r =>
    obtain ⟨run, hrun, hfailed, herror, htime⟩ := h
    exact ⟨run, hrun, htime, hfailed, herror⟩
  | ok ex =>
    obtain ⟨run, hrun, -⟩ := h
    rw [finishRun, completeRun, stampRun, hrun]
    exact ⟨_, AList.lookup_insert _, rfl, rfl, rfl⟩

/-- **The exits of `execute_run`**: the record is right unless workflow or agent is missing. -/
theorem executeRun_settled_iff (env : Agents ω) (engine : WorkflowEngine) (runId : WorkflowRunId)
    (w : ω) (run : WorkflowRun) (hrun : engine.runs.lookup runId = some run) :
    Settled (executeRun env engine runId w).2.1.runs runId (executeRun env engine runId w).1 ↔
      ∃ workflow, engine.workflows.lookup run.workflowId = some workflow ∧
        AllAgentsFound env runId workflow.steps (0, startOf engine runId run w) := by
  have hlive : Live runId (startOf engine runId run w) := ⟨_, AList.lookup_insert _, rfl⟩
  cases hwf : engine.workflows.lookup run.workflowId with
  | none =>
    simp only [executeRun, hrun, hwf]
    exact iff_of_false (hlive.not_settled _) (by simp)
  | some workflow =>
    simp only [executeRun, hrun, hwf, Option.some.injEq, exists_eq_left']
    obtain ⟨hok, hbad⟩ := runSteps_spec env workflow.steps 0 _ hlive
    by_cases hall : AllAgentsFound env runId workflow.steps (0, startOf engine runId run w)
    · exact iff_of_true (settled_finishRun (hok hall)) hall
    · refine iff_of_false ?_ hall
      obtain ⟨e, ex, hr, hex⟩ := hbad hall
      rw [hr]
      exact hex.not_settled e

def echo : Agents ℕ where
  resolve _ agent := if agent = .byName "echo" then some (⟨"0"⟩, "echo") else none
  send w _ prompt _ := (.success prompt 1 1, w + 1)
  sendAll w reqs := (fun k => match reqs[k]? with
    | some req => .success req.2.1 1 1
    | none => .timeout, w + 1)
  clock w := (w, w + 1)
  order _ := .stored _
  toLowercase := id

/-- An engine with a workflow of one step for the agent `name` and a run of it. -/
def oneStep (name : String) : WorkflowEngine where
  workflows := AList.singleton ⟨1⟩ ⟨⟨1⟩, "w", [⟨"ask", .byName name, "\x7b\x7binput\x7d\x7d",
    .sequential, 120, .fail, none⟩]⟩
  runs := AList.singleton ⟨7⟩ ⟨⟨7⟩, ⟨1⟩, "w", "hello", .pending, [], none, none, 0, none⟩

theorem echo_run_settled :
    Settled (executeRun echo (oneStep "echo") ⟨7⟩ 0).2.1.runs ⟨7⟩
      (executeRun echo (oneStep "echo") ⟨7⟩ 0).1 := by
  refine (executeRun_settled_iff echo (oneStep "echo") ⟨7⟩ 0 _ rfl).mpr ⟨_, rfl, ?_⟩
  refine allAgentsFound_of_resolve (fun s hs w => ?_) _
  obtain rfl := mem_singleton.mp hs
  rfl

/-- A run whose agent is not found is left in state running. -/
theorem missing_agent_left_running :
    (executeRun echo (oneStep "nobody") ⟨7⟩ 0).1 = .error "Agent not found for step 'ask'" ∧
      ((executeRun echo (oneStep "nobody") ⟨7⟩ 0).2.1.runs.lookup ⟨7⟩).map WorkflowRun.state =
        some .running := by
  decide +kernel

end Workflow

end AlloyAgent
