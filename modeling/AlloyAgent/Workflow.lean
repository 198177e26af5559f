import AlloyAgent.HashTable
import AlloyAgent.Outcome
import AlloyAgent.RustStr

/-!
# The workflow engine

`WorkflowEngine::execute_run` drives one stored run through the steps of its workflow: five step
modes, three error modes, variables, and a run record that is updated on the way.

* `executeStepWithErrorMode`, `runStep`: one step, in each mode;
* `runSteps`, `executeRun`: the loop, and the record that it leaves.
-/

namespace AlloyAgent.Workflow

open RustStr

structure WorkflowId where
  uuid : ℕ
  deriving DecidableEq

structure WorkflowRunId where
  uuid : ℕ
  deriving DecidableEq

/-- Identifier of an agent, as it prints. -/
structure AgentId where
  uuid : String
  deriving DecidableEq

inductive StepAgent where
  | byId (id : String)
  /-- Reference an agent by name (first match). -/
  | byName (name : String)
  deriving DecidableEq

/-- Execution mode for a workflow step. -/
inductive StepMode where
  | sequential
  /-- this step runs in parallel with subsequent `fanOut` steps -/
  | fanOut
  | collect
  /-- skip this step if the previous output does not contain `condition` -/
  | conditional (condition : String)
  /-- repeat this step until its output contains `untilText` -/
  | loop (maxIterations : ℕ) (untilText : String)
  deriving DecidableEq

/-- Error handling mode for a workflow step. -/
inductive ErrorMode where
  | fail
  | skip
  | retry (maxRetries : ℕ)
  deriving DecidableEq

structure WorkflowStep where
  name : String
  agent : StepAgent
  promptTemplate : String
  mode : StepMode
  timeoutSecs : ℕ
  errorMode : ErrorMode
  outputVar : Option String
  deriving DecidableEq

structure Definition where
  id : WorkflowId
  name : String
  steps : List WorkflowStep

inductive WorkflowRunState where
  | pending
  | running
  | completed
  | failed
  deriving DecidableEq

structure StepResult where
  stepName : String
  agentId : String
  agentName : String
  output : String
  inputTokens : ℕ
  outputTokens : ℕ
  durationMs : ℕ
  deriving DecidableEq

/-- A running workflow instance. -/
structure WorkflowRun where
  id : WorkflowRunId
  workflowId : WorkflowId
  workflowName : String
  input : String
  state : WorkflowRunState
  stepResults : List StepResult
  output : Option String
  error : Option String
  startedAt : ℕ
  completedAt : Option ℕ
  deriving DecidableEq

/-- Workflow definitions and their runs. -/
structure WorkflowEngine where
  workflows : Table WorkflowId Definition
  runs : Table WorkflowRunId WorkflowRun

/-- What sending a message to an agent, with a time limit, leads to. -/
inductive SendOutcome where
  | success (output : String) (inputTokens outputTokens : ℕ)
  | failure (error : String)
  | timeout

/-- Everything outside the engine; `ω` is its state. -/
structure Agents (ω : Type) where
  resolve : ω → StepAgent → Option (AgentId × String)
  /-- `send_message`, cut off after so many seconds -/
  send : ω → AgentId → String → ℕ → SendOutcome × ω
  /-- several messages at once; the outcomes by position -/
  sendAll : ω → List (AgentId × String × ℕ) → (ℕ → SendOutcome) × ω
  clock : ω → ℕ × ω
  order : ω → IterOrder (String × String)
  toLowercase : String → String

/-- The local variables of `execute_run`, the stored runs and the world. -/
structure Exec (ω : Type) where
  world : ω
  runs : Table WorkflowRunId WorkflowRun
  currentInput : String
  allOutputs : List String
  vars : Table String String

variable {ω : Type}

def reference (key : String) : String := "\x7b\x7b" ++ key ++ "\x7d\x7d"

def replaceAll (s pat new : String) : String :=
  String.ofList (RustStr.replace s.toList pat.toList new.toList)

/-- Replace references in a template with variable values. -/
def expandVariables (order : IterOrder (String × String)) (template input : String)
    (vars : Table String String) : String :=
  (order.arrange vars.pairs).foldl (fun result var => replaceAll result (reference var.1) var.2)
    (replaceAll template (reference "input") input)

/-- The attempts of the error mode `retry` that are left. -/
def retry (env : Agents ω) (step : WorkflowStep) (agentId : AgentId) (prompt : String)
    (maxRetries : ℕ) : ℕ → String → ω → Except String (Option (String × ℕ × ℕ)) × ω
  | 0, lastErr, w =>
    (.error ("Step '" ++ step.name ++ "' failed after " ++ toString maxRetries ++ " retries: " ++
      lastErr), w)
  | attempts + 1, _, w =>
    match env.send w agentId prompt step.timeoutSecs with
    | (.success output inputTokens outputTokens, w) =>
      (.ok (some (output, inputTokens, outputTokens)), w)
    | (.failure e, w) => retry env step agentId prompt maxRetries attempts e w
    | (.timeout, w) =>
      retry env step agentId prompt maxRetries attempts
        ("timed out after " ++ toString step.timeoutSecs ++ "s") w

/-- Execute a single step with error mode handling. -/
def executeStepWithErrorMode (env : Agents ω) (step : WorkflowStep) (agentId : AgentId)
    (prompt : String) (w : ω) : Except String (Option (String × ℕ × ℕ)) × ω :=
  match step.errorMode with
  | .fail =>
    match env.send w agentId prompt step.timeoutSecs with
    | (.success output inputTokens outputTokens, w) =>
      (.ok (some (output, inputTokens, outputTokens)), w)
    | (.failure e, w) => (.error ("Step '" ++ step.name ++ "' failed: " ++ e), w)
    | (.timeout, w) =>
      (.error ("Step '" ++ step.name ++ "' timed out after " ++ toString step.timeoutSecs ++ "s"),
        w)
  | .skip =>
    match env.send w agentId prompt step.timeoutSecs with
    | (.success output inputTokens outputTokens, w) =>
      (.ok (some (output, inputTokens, outputTokens)), w)
    | (.failure _, w) => (.ok none, w)
    | (.timeout, w) => (.ok none, w)
  | .retry maxRetries => retry env step agentId prompt maxRetries (maxRetries + 1) "" w

/-- The same between two looks at the clock; the last component is the duration. -/
def timedStep (env : Agents ω) (step : WorkflowStep) (agentId : AgentId) (prompt : String) (w : ω) :
    Except String (Option (String × ℕ × ℕ)) × ℕ × ω :=
  let (start, w) := env.clock w
  let (result, w) := executeStepWithErrorMode env step agentId prompt w
  let (stop, w) := env.clock w
  (result, stop - start, w)

/-- `if let Some(r) = self.runs.write().await.get_mut(&run_id) { … }`. -/
def modifyRun (runId : WorkflowRunId) (f : WorkflowRun → WorkflowRun) (ex : Exec ω) : Exec ω :=
  match ex.runs.lookup runId with
  | some r => { ex with runs := ex.runs.insert runId (f r) }
  | none => ex

/-- The same with the time of the update. -/
def stampRun (env : Agents ω) (runId : WorkflowRunId) (f : ℕ → WorkflowRun → WorkflowRun)
    (ex : Exec ω) : Exec ω :=
  match ex.runs.lookup runId with
  | some r =>
    let (now, w) := env.clock ex.world
    { ex with runs := ex.runs.insert runId (f now r), world := w }
  | none => ex

/-- The explicit `return Err(e)`: the run is marked before. -/
def failRun {α : Type} (env : Agents ω) (runId : WorkflowRunId) (e : String) (ex : Exec ω) :
    Except (String × Exec ω) α :=
  .error (e, stampRun env runId
    (fun now r => { r with state := .failed, error := some e, completedAt := some now }) ex)

def pushResult (runId : WorkflowRunId) (result : StepResult) (ex : Exec ω) : Exec ω :=
  modifyRun runId (fun r => { r with stepResults := r.stepResults ++ [result] }) ex

/-- `if let Some(ref var) = step.output_var { variables.insert(…) }`. -/
def bindOutput (step : WorkflowStep) (output : String) (ex : Exec ω) : Exec ω :=
  match step.outputVar with
  | some var => { ex with vars := ex.vars.insert var output }
  | none => ex

/-- A step has produced its output: record it, bind it and pass it on. -/
def completeStep (runId : WorkflowRunId) (step : WorkflowStep) (result : StepResult) (ex : Exec ω) :
    Exec ω :=
  let ex := bindOutput step result.output (pushResult runId result ex)
  { ex with allOutputs := ex.allOutputs ++ [result.output], currentInput := result.output }

/-- The `?` at the agent resolver. -/
def resolveAgent (env : Agents ω) (step : WorkflowStep) (ex : Exec ω) :
    Except (String × Exec ω) (AgentId × String) :=
  match env.resolve ex.world step.agent with
  | some agent => .ok agent
  | none => .error ("Agent not found for step '" ++ step.name ++ "'", ex)

def promptOf (env : Agents ω) (step : WorkflowStep) (ex : Exec ω) : String :=
  expandVariables (env.order ex.world) step.promptTemplate ex.currentInput ex.vars

/-- `StepMode::Sequential`, and `StepMode::Conditional` once its condition is met. -/
def sequentialStep (env : Agents ω) (runId : WorkflowRunId) (step : WorkflowStep) (ex : Exec ω) :
    Except (String × Exec ω) (Exec ω) := do
  let (agentId, agentName) ← resolveAgent env step ex
  match timedStep env step agentId (promptOf env step ex) ex.world with
  | (.ok (some (output, inputTokens, outputTokens)), durationMs, w) =>
    .ok (completeStep runId step
      ⟨step.name, agentId.uuid, agentName, output, inputTokens, outputTokens, durationMs⟩
      { ex with world := w })
  | (.ok none, _, w) => .ok { ex with world := w }
  | (.error e, _, w) => failRun env runId e { ex with world := w }

/-- The steps that run together with the `fanOut` step at `i`. -/
def fanOutGroup (steps : List WorkflowStep) (i : ℕ) : List WorkflowStep :=
  (steps.drop i).take 1 ++ (steps.drop (i + 1)).takeWhile fun s => s.mode = .fanOut

/-- The loop that builds the futures: the first agent that is not found ends it. -/
def resolveAll (env : Agents ω) (ex : Exec ω) :
    List WorkflowStep → Except (String × Exec ω) (List (WorkflowStep × AgentId × String))
  | [] => .ok []
  | step :: group => do
    let (agentId, agentName) ← resolveAgent env step ex
    let rest ← resolveAll env ex group
    .ok ((step, agentId, agentName) :: rest)

/-- The loop body over the results of a fan-out. -/
def fanOutResult (env : Agents ω) (runId : WorkflowRunId) (durationMs : ℕ) (ex : Exec ω) :
    (WorkflowStep × AgentId × String) × SendOutcome → Except (String × Exec ω) (Exec ω)
  | ((step, agentId, agentName), .success output inputTokens outputTokens) =>
    .ok (completeStep runId step
      ⟨step.name, agentId.uuid, agentName, output, inputTokens, outputTokens, durationMs⟩ ex)
  | ((step, _, _), .failure e) =>
    failRun env runId ("FanOut step '" ++ step.name ++ "' failed: " ++ e) ex
  | ((step, _, _), .timeout) =>
    failRun env runId
      ("FanOut step '" ++ step.name ++ "' timed out after " ++ toString step.timeoutSecs ++ "s") ex

def fanOutStep (env : Agents ω) (runId : WorkflowRunId) (group : List WorkflowStep) (ex : Exec ω) :
    Except (String × Exec ω) (Exec ω) := do
  let infos ← resolveAll env ex group
  let (start, w) := env.clock ex.world
  let (results, w) := env.sendAll w (infos.map fun info =>
    (info.2.1, promptOf env info.1 ex, info.1.timeoutSecs))
  let (stop, w) := env.clock w
  (infos.zipIdx.map fun info => (info.1, results info.2)).foldlM
    (fanOutResult env runId (stop - start)) { ex with world := w }

def collectStep (step : WorkflowStep) (ex : Exec ω) : Exec ω :=
  let joined := String.intercalate "\n\n---\n\n" ex.allOutputs
  bindOutput step joined { ex with currentInput := joined, allOutputs := [joined] }

/-- The iterations of a loop that are left; `loopIter` counts those before. -/
def loopIterations (env : Agents ω) (runId : WorkflowRunId) (step : WorkflowStep)
    (untilLower : String) (agentId : AgentId) (agentName : String) :
    ℕ → ℕ → Exec ω → Except (String × Exec ω) (Exec ω)
  | 0, _, ex => .ok ex
  | left + 1, loopIter, ex =>
    match timedStep env step agentId (promptOf env step ex) ex.world with
    | (.ok (some (output, inputTokens, outputTokens)), durationMs, w) =>
      let ex := pushResult runId
        ⟨step.name ++ " (iter " ++ toString (loopIter + 1) ++ ")", agentId.uuid, agentName, output,
          inputTokens, outputTokens, durationMs⟩ { ex with world := w }
      let ex := { ex with currentInput := output }
      if contains (env.toLowercase output).toList untilLower.toList then .ok ex
      else loopIterations env runId step untilLower agentId agentName left (loopIter + 1) ex
    | (.ok none, _, w) => .ok { ex with world := w }
    | (.error e, _, w) => failRun env runId e { ex with world := w }

def loopStep (env : Agents ω) (runId : WorkflowRunId) (step : WorkflowStep) (maxIterations : ℕ)
    (untilText : String) (ex : Exec ω) : Except (String × Exec ω) (Exec ω) := do
  let (agentId, agentName) ← resolveAgent env step ex
  let ex ← loopIterations env runId step (env.toLowercase untilText) agentId agentName
    maxIterations 0 ex
  let ex := bindOutput step ex.currentInput ex
  .ok { ex with allOutputs := ex.allOutputs ++ [ex.currentInput] }

/-- The condition of a conditional step, on the previous output. -/
def conditionMet (env : Agents ω) (condition : String) (ex : Exec ω) : Bool :=
  contains (env.toLowercase ex.currentInput).toList (env.toLowercase condition).toList

/-- The body of the `while` loop for the step at `i`. -/
def runStep (env : Agents ω) (runId : WorkflowRunId) (steps : List WorkflowStep) (i : ℕ)
    (step : WorkflowStep) (ex : Exec ω) : Except (String × Exec ω) (Exec ω) :=
  match step.mode with
  | .sequential => sequentialStep env runId step ex
  | .fanOut => fanOutStep env runId (fanOutGroup steps i) ex
  | .collect => .ok (collectStep step ex)
  | .conditional condition =>
    if conditionMet env condition ex then sequentialStep env runId step ex else .ok ex
  | .loop maxIterations untilText => loopStep env runId step maxIterations untilText ex

/-- The index after the step at `i`: past the whole group after a fan-out. -/
def nextIndex (steps : List WorkflowStep) (i : ℕ) (step : WorkflowStep) : ℕ :=
  match step.mode with
  | .fanOut => i + 1 + ((steps.drop (i + 1)).takeWhile fun s => s.mode = .fanOut).length
  | _ => i + 1

theorem lt_nextIndex (steps : List WorkflowStep) (i : ℕ) (step : WorkflowStep) :
    i < nextIndex steps i step := by
  rw [nextIndex]
  split <;> omega

def runSteps (env : Agents ω) (runId : WorkflowRunId) (steps : List WorkflowStep) (i : ℕ)
    (ex : Exec ω) : Except (String × Exec ω) (Exec ω) :=
  if h : i < steps.length then
    match runStep env runId steps i steps[i] ex with
    | .error r => .error r
    | .ok ex => runSteps env runId steps (nextIndex steps i steps[i]) ex
  else .ok ex
termination_by steps.length - i
decreasing_by
  have hlt := lt_nextIndex steps i steps[i]
  omega

/-- The local variables before the first step; the run is in state running. -/
def startOf (engine : WorkflowEngine) (runId : WorkflowRunId) (run : WorkflowRun) (w : ω) :
    Exec ω :=
  ⟨w, engine.runs.insert runId { run with state := .running }, run.input, [], ∅⟩

/-- The end of `execute_run`: mark the workflow as completed. -/
def completeRun (env : Agents ω) (runId : WorkflowRunId) (ex : Exec ω) : Exec ω :=
  stampRun env runId (fun now r => { r with
    state := .completed, output := some ex.currentInput, completedAt := some now }) ex

/-- What is returned after the loop, and the state that is left. -/
def finishRun (env : Agents ω) (runId : WorkflowRunId) :
    Except (String × Exec ω) (Exec ω) → Except String String × Exec ω
  | .error (e, ex) => (.error e, ex)
  | .ok ex => (.ok ex.currentInput, completeRun env runId ex)

/-- `execute_run`: what it returns, the engine and the world afterwards. -/
def executeRun (env : Agents ω) (engine : WorkflowEngine) (runId : WorkflowRunId) (w : ω) :
    Except String String × WorkflowEngine × ω :=
  match engine.runs.lookup runId with
  | none => (.error "Workflow run not found", engine, w)
  | some run =>
    let start := startOf engine runId run w
    match engine.workflows.lookup run.workflowId with
    | none => (.error "Workflow definition not found", { engine with runs := start.runs }, w)
    | some workflow =>
      let (result, ex) := finishRun env runId (runSteps env runId workflow.steps 0 start)
      (result, { engine with runs := ex.runs }, ex.world)

end AlloyAgent.Workflow
