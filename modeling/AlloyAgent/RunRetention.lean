import AlloyAgent.WorkflowExits

/-!
# Which workflow runs are kept

`create_run` stores a new run. If there are then more than 200, it removes the oldest of the runs
that have completed or failed, as many as there are too many, or all of them.

* `evictRuns_spec`: what is left; `createRun_retains`: what a call keeps and removes;
* `executeRun_updates`: executing a run changes no other one.
-/

namespace AlloyAgent

open List

namespace Workflow

open Transition

/-- Maximum number of retained workflow runs. -/
def maxRetainedRuns : ℕ := 200

def WorkflowRunState.isFinished : WorkflowRunState → Bool
  | .completed => true
  | .failed => true
  | .pending => false
  | .running => false

/-- The runs that may be evicted with the time at which they were started, oldest first. -/
def evictable (order : IterOrder (WorkflowRunId × WorkflowRun))
    (runs : Table WorkflowRunId WorkflowRun) : List (WorkflowRunId × ℕ) :=
  (((order.arrange runs.pairs).filter fun r => r.2.state.isFinished).map fun r =>
    (r.1, r.2.startedAt)).insertionSort fun a b => a.2 ≤ b.2

/-- As many of them as there are runs too many. -/
def evicted (order : IterOrder (WorkflowRunId × WorkflowRun))
    (runs : Table WorkflowRunId WorkflowRun) : List (WorkflowRunId × ℕ) :=
  (evictable order runs).take (runs.size - maxRetainedRuns)

def evictRuns (order : IterOrder (WorkflowRunId × WorkflowRun))
    (runs : Table WorkflowRunId WorkflowRun) : Table WorkflowRunId WorkflowRun :=
  if maxRetainedRuns < runs.size then
    ((evicted order runs).map Prod.fst).foldl (fun runs id => runs.erase id) runs
  else runs

def newRun (runId : WorkflowRunId) (workflow : Definition) (workflowId : WorkflowId)
    (input : String) (now : ℕ) : WorkflowRun :=
  ⟨runId, workflowId, workflow.name, input, .pending, [], none, none, now, none⟩

namespace WorkflowEngine

def new : WorkflowEngine := ⟨∅, ∅⟩

def register (engine : WorkflowEngine) (workflow : Definition) : WorkflowEngine :=
  { engine with workflows := engine.workflows.insert workflow.id workflow }

/-- Start a workflow run, under the id that is drawn for it. -/
def createRun (order : IterOrder (WorkflowRunId × WorkflowRun)) (engine : WorkflowEngine)
    (workflowId : WorkflowId) (input : String) (runId : WorkflowRunId) (now : ℕ) :
    Option WorkflowRunId × WorkflowEngine :=
  match engine.workflows.lookup workflowId with
  | none => (none, engine)
  | some workflow =>
    (some runId, { engine with
      runs := evictRuns order
        (engine.runs.insert runId (newRun runId workflow workflowId input now)) })

end WorkflowEngine

variable {order : IterOrder (WorkflowRunId × WorkflowRun)}
  {runs : Table WorkflowRunId WorkflowRun}

theorem mem_evictable {id : WorkflowRunId} {t : ℕ} :
    (id, t) ∈ evictable order runs ↔
      ∃ run, runs.lookup id = some run ∧ run.state.isFinished = true ∧ run.startedAt = t := by
  rw [evictable, (perm_insertionSort _ _).mem_iff, mem_map]
  refine ⟨?_, ?_⟩
  · rintro ⟨⟨id', run⟩, hmem, heq⟩
    cases heq
    obtain ⟨hmem, hfin⟩ := mem_filter.mp hmem
    exact ⟨run, Table.mem_pairs.mp (order.mem_arrange.mp hmem), hfin, rfl⟩
  · rintro ⟨run, hrun, hfin, rfl⟩
    refine ⟨(id, run), mem_filter.mpr ⟨?_, hfin⟩, rfl⟩
    exact order.mem_arrange.mpr (Table.mem_pairs.mpr hrun)

theorem nodup_evictable (order : IterOrder (WorkflowRunId × WorkflowRun))
    (runs : Table WorkflowRunId WorkflowRun) : ((evictable order runs).map Prod.fst).Nodup := by
  have hperm := perm_insertionSort (fun a b : WorkflowRunId × ℕ => a.2 ≤ b.2)
    (((order.arrange runs.pairs).filter fun r => r.2.state.isFinished).map fun r =>
      (r.1, r.2.startedAt))
  refine (hperm.map Prod.fst).nodup_iff.mpr ?_
  rw [map_map]
  have hall : ((order.arrange runs.pairs).map Prod.fst).Nodup :=
    ((order.perm _).map _).nodup_iff.mpr runs.nodup_keys_pairs
  exact hall.sublist (filter_sublist.map _)

theorem evictRuns_eq (order : IterOrder (WorkflowRunId × WorkflowRun))
    (runs : Table WorkflowRunId WorkflowRun) :
    evictRuns order runs =
      ((evicted order runs).map Prod.fst).foldl (fun runs id => runs.erase id) runs := by
  rw [evictRuns]
  split
  · rfl
  · rename_i hsmall
    rw [evicted, Nat.sub_eq_zero_of_le (Nat.le_of_not_lt hsmall)]
    rfl

theorem lookup_evictRuns (id : WorkflowRunId) :
    (evictRuns order runs).lookup id =
      if id ∈ (evicted order runs).map Prod.fst then none else runs.lookup id := by
  rw [evictRuns_eq, Table.lookup_foldl_erase]

theorem exists_of_mem_evicted {id : WorkflowRunId} (h : id ∈ (evicted order runs).map Prod.fst) :
    ∃ run, runs.lookup id = some run ∧ run.state.isFinished = true ∧
      (id, run.startedAt) ∈ evicted order runs := by
  obtain ⟨⟨id', t⟩, hmem, rfl⟩ := mem_map.mp h
  obtain ⟨run, hrun, hfin, rfl⟩ := mem_evictable.mp (mem_of_mem_take hmem)
  exact ⟨run, hrun, hfin, hmem⟩

theorem le_of_mem_evicted {a b : WorkflowRunId × ℕ} (ha : a ∈ evicted order runs)
    (hb : b ∈ evictable order runs) (hnot : b ∉ evicted order runs) : a.2 ≤ b.2 := by
  have hsorted : (evictable order runs).Pairwise fun a b => a.2 ≤ b.2 :=
    pairwise_insertionSort (fun a b : WorkflowRunId × ℕ => a.2 ≤ b.2) _
  rw [← take_append_drop (runs.size - maxRetainedRuns) (evictable order runs)] at hsorted hb
  have hdrop := (mem_append.mp hb).resolve_left hnot
  exact (pairwise_append.mp hsorted).2.2 a ha b hdrop

theorem size_evictRuns (order : IterOrder (WorkflowRunId × WorkflowRun))
    (runs : Table WorkflowRunId WorkflowRun) :
    (evictRuns order runs).size + (evicted order runs).length = runs.size := by
  have hnodup : ((evicted order runs).map Prod.fst).Nodup :=
    (nodup_evictable order runs).sublist ((take_sublist _ _).map _)
  have hsize := @Table.size_foldl_erase _ _ _ _ runs hnodup fun id hid => by
    obtain ⟨run, hrun, -⟩ := exists_of_mem_evicted hid
    rw [hrun]
    rfl
  rwa [length_map, ← evictRuns_eq] at hsize

/-- All runs that have not finished are left, and the younger ones of the others; not too many. -/
structure Retained (runs left : Table WorkflowRunId WorkflowRun) : Prop where
  /-- nothing is added or changed -/
  stored : ∀ id run, left.lookup id = some run → runs.lookup id = some run
  /-- what is pending or running is kept -/
  kept : ∀ id run, runs.lookup id = some run → run.state.isFinished = false →
    left.lookup id = some run
  /-- what is removed is not younger than any finished run that is kept -/
  oldest : ∀ id run id' run', runs.lookup id = some run → left.lookup id = none →
    left.lookup id' = some run' → run'.state.isFinished = true → run.startedAt ≤ run'.startedAt
  /-- at most so many are left, or none of them has finished -/
  bound : left.size ≤ maxRetainedRuns ∨
    ∀ id run, left.lookup id = some run → run.state.isFinished = false

/-- **What is left after the eviction.** -/
theorem evictRuns_spec (order : IterOrder (WorkflowRunId × WorkflowRun))
    (runs : Table WorkflowRunId WorkflowRun) : Retained runs (evictRuns order runs) where
  stored id run hrun := by
    rw [lookup_evictRuns] at hrun
    split_ifs at hrun
    exact hrun
  kept id run hrun hlive := by
    rw [lookup_evictRuns, if_neg, hrun]
    intro hid
    obtain ⟨run', hrun', hfin, -⟩ := exists_of_mem_evicted hid
    rw [← Option.some.inj (hrun.symm.trans hrun'), hlive] at hfin
    cases hfin
  oldest id run id' run' hrun hnone hrun' hfin := by
    rw [lookup_evictRuns] at hnone hrun'
    split_ifs at hrun' with hid'
    split_ifs at hnone with hid
    · obtain ⟨run₁, hrun₁, -, hmem⟩ := exists_of_mem_evicted hid
      cases hrun.symm.trans hrun₁
      have hmem' : (id', run'.startedAt) ∈ evictable order runs :=
        mem_evictable.mpr ⟨run', hrun', hfin, rfl⟩
      exact le_of_mem_evicted hmem hmem' fun hin => hid' (mem_map_of_mem hin)
    · rw [hrun] at hnone
      cases hnone
  bound := by
    have hsize := size_evictRuns order runs
    rcases Nat.lt_or_ge (evictable order runs).length (runs.size - maxRetainedRuns) with
      hfew | hmany
    · -- all that have finished are removed
      right
      intro id run hrun
      rw [lookup_evictRuns, evicted, take_of_length_le hfew.le] at hrun
      split_ifs at hrun with hid
      by_contra hfin
      rw [Bool.not_eq_false] at hfin
      exact hid (mem_map_of_mem (mem_evictable.mpr ⟨run, hrun, hfin, rfl⟩))
    · left
      have hlength : (evicted order runs).length = runs.size - maxRetainedRuns :=
        length_take_of_le hmany
      omega

/-! ## Runs of the engine -/

/-- What `execute_run` does to the record of a run, between two points at which it waits. -/
inductive RunChange where
  | start
  | record (result : StepResult)
  | fail (error : String) (now : ℕ)
  | complete (output : String) (now : ℕ)

def RunChange.apply : RunChange → WorkflowRun → WorkflowRun
  | .start, r => { r with state := .running }
  | .record result, r => { r with stepResults := r.stepResults ++ [result] }
  | .fail e now, r => { r with state := .failed, error := some e, completedAt := some now }
  | .complete output now, r =>
    { r with state := .completed, output := some output, completedAt := some now }

def applyChange (runId : WorkflowRunId) (runs : Table WorkflowRunId WorkflowRun)
    (change : RunChange) : Table WorkflowRunId WorkflowRun :=
  match runs.lookup runId with
  | some r => runs.insert runId (change.apply r)
  | none => runs

theorem applyChange_of_some (change : RunChange) (h : runs.lookup runId = some r) :
    applyChange runId runs change = runs.insert runId (change.apply r) := by
  rw [applyChange, h]

theorem size_applyChange (runId : WorkflowRunId) (change : RunChange) :
    (applyChange runId runs change).size = runs.size := by
  rw [applyChange]
  split
  · rename_i r hr
    rw [Table.size_insert, hr]
    rfl
  · rfl

/-- Calls of `register` and `create_run`, and changes of runs by `execute_run`. -/
inductive EngineOp where
  | register (workflow : Definition)
  | createRun (order : IterOrder (WorkflowRunId × WorkflowRun)) (workflowId : WorkflowId)
      (input : String) (runId : WorkflowRunId) (now : ℕ)
  | change (runId : WorkflowRunId) (change : RunChange)

def engineStep (engine : WorkflowEngine) : EngineOp → Option WorkflowEngine
  | .register workflow => some (engine.register workflow)
  | .createRun order workflowId input runId now =>
    some (engine.createRun order workflowId input runId now).2
  | .change runId change => some { engine with runs := applyChange runId engine.runs change }

def Retains (engine : WorkflowEngine) : EngineOp → Prop
  | .createRun order workflowId input runId now =>
    match engine.workflows.lookup workflowId with
    | none => engine.createRun order workflowId input runId now = (none, engine)
    | some workflow =>
      let run := newRun runId workflow workflowId input now
      let (created, engine') := engine.createRun order workflowId input runId now
      created = some runId ∧ engine'.runs.lookup runId = some run ∧
        Retained (engine.runs.insert runId run) engine'.runs
  | _ => True

/-- **Retention of runs**: what `create_run` keeps, and what it removes first. -/
theorem createRun_retains (engine : WorkflowEngine) (ops : List EngineOp) :
    Guarded engineStep Retains engine ops := by
  refine Guarded.of_forall (fun engine op => ?_) ops engine
  cases op with
  | register workflow => trivial
  | change runId change => trivial
  | createRun order workflowId input runId now =>
    rw [Retains, WorkflowEngine.createRun]
    split
    · rfl
    · rename_i workflow _
      have hspec := evictRuns_spec order
        (engine.runs.insert runId (newRun runId workflow workflowId input now))
      exact ⟨rfl, hspec.kept _ _ (AList.lookup_insert _) rfl, hspec⟩

/-! ## What a call of `execute_run` does -/

section

variable {ω : Type} {env : Agents ω} {runId : WorkflowRunId}

/-- The stored runs have become what changes of one run make of them. -/
def Changed (runId : WorkflowRunId) (runs runs' : Table WorkflowRunId WorkflowRun) : Prop :=
  ∃ changes : List RunChange, runs' = changes.foldl (applyChange runId) runs

theorem Changed.snoc {runs runs' : Table WorkflowRunId WorkflowRun} (h : Changed runId runs runs')
    (change : RunChange) : Changed runId runs (applyChange runId runs' change) := by
  obtain ⟨changes, rfl⟩ := h
  exact ⟨changes ++ [change], by rw [foldl_append, foldl_cons, foldl_nil]⟩

/-- The step has only changed the run, whether it goes on or not. -/
abbrev Tracks (runId : WorkflowRunId) (runs : Table WorkflowRunId WorkflowRun)
    (x : Except (String × Exec ω) (Exec ω)) : Prop :=
  Outcome (fun r => Changed runId runs r.2.runs) (fun ex => Changed runId runs ex.runs) x

theorem runs_pushResult (runId : WorkflowRunId) (result : StepResult) (ex : Exec ω) :
    (pushResult runId result ex).runs = applyChange runId ex.runs (.record result) := by
  rw [pushResult, modifyRun, applyChange]
  cases ex.runs.lookup runId <;> rfl

theorem changed_stampRun {ex : Exec ω} (h : Changed runId runs ex.runs)
    {f : ℕ → WorkflowRun → WorkflowRun} {change : ℕ → RunChange}
    (hf : ∀ now, f now = (change now).apply) :
    Changed runId runs (stampRun env runId f ex).runs := by
  have hruns : (stampRun env runId f ex).runs =
      applyChange runId ex.runs (change (env.clock ex.world).1) := by
    rw [stampRun, applyChange, ← hf]
    cases ex.runs.lookup runId <;> rfl
  rw [hruns]
  exact h.snoc _

theorem keeps_changed : Keeps env runId (fun r => Changed runId runs r.2.runs)
    fun ex => Changed runId runs ex.runs where
  of_runs h hruns := hruns ▸ h
  push result h := by
    rw [runs_pushResult]
    exact h.snoc _
  fail e h := @changed_stampRun runs ω env runId _ h _ (fun now => .fail e now) fun _ => rfl

theorem tracks_runSteps (env : Agents ω) (h : Changed runId runs ex.runs)
    (steps : List WorkflowStep) (i : ℕ) : Tracks runId runs (runSteps env runId steps i ex) := by
  fun_induction runSteps env runId steps i ex with
  | case1 i ex hi r hr => exact hr ▸ keeps_changed.runStep h (.inr fun _ => h)
  | case2 i ex hi ex' hr ih =>
    have hstep := @Keeps.runStep ω env runId ex steps i steps[i] _ _ keeps_changed h
      (.inr fun _ => h)
    rw [hr] at hstep
    exact ih hstep
  | case3 i ex hi => exact h

theorem run_changes (engine : WorkflowEngine) (runId : WorkflowRunId) (changes : List RunChange) :
    run engineStep engine (changes.map (EngineOp.change runId)) =
      some { engine with runs := changes.foldl (applyChange runId) engine.runs } := by
  induction changes generalizing engine with
  | nil => rfl
  | cons change changes ih => exact ih { engine with runs := applyChange runId engine.runs change }

/-- **A call of `execute_run` changes one run**, in steps that the runs of the engine have. -/
theorem executeRun_updates (env : Agents ω) (engine : WorkflowEngine) (runId : WorkflowRunId)
    (w : ω) :
    ∃ changes : List RunChange, run engineStep engine (changes.map (EngineOp.change runId)) =
      some (executeRun env engine runId w).2.1 := by
  rw [executeRun]
  cases hrun : engine.runs.lookup runId with
  | none => exact ⟨[], rfl⟩
  | some r =>
    have hstart : Changed runId engine.runs (startOf engine runId r w).runs :=
      ⟨[.start], (applyChange_of_some .start hrun).symm⟩
    dsimp only
    cases engine.workflows.lookup r.workflowId with
    | none =>
      obtain ⟨changes, hchanges⟩ := hstart
      exact ⟨changes, by rw [run_changes, ← hchanges]⟩
    | some workflow =>
      have hfinish : Changed runId engine.runs
          (finishRun env runId
            (runSteps env runId workflow.steps 0 (startOf engine runId r w))).2.runs := by
        have hsteps := tracks_runSteps env hstart workflow.steps 0
        cases hend : runSteps env runId workflow.steps 0 (startOf engine runId r w) with
        | error r =>
          rw [hend] at hsteps
          exact hsteps
        | ok ex =>
          rw [hend] at hsteps
          exact @changed_stampRun _ ω env runId ex hsteps _
            (fun now => .complete ex.currentInput now) fun _ => rfl
      obtain ⟨changes, hchanges⟩ := hfinish
      exact ⟨changes, by rw [run_changes, ← hchanges]⟩

end

/-! ## Runs that pile up -/

theorem evictRuns_of_live
    (h : ∀ id run, runs.lookup id = some run → run.state.isFinished = false) :
    evictRuns order runs = runs := by
  have hnone : evictable order runs = [] := by
    refine eq_nil_iff_forall_not_mem.mpr fun e he => ?_
    obtain ⟨run, hrun, hfin, -⟩ := mem_evictable.mp he
    rw [h _ _ hrun] at hfin
    cases hfin
  rw [evictRuns_eq, evicted, hnone, take_nil]
  rfl

def idle : Definition := ⟨⟨1⟩, "idle", []⟩

def pile (n : ℕ) : List EngineOp :=
  .register idle :: (List.range n).map fun k => .createRun (.stored _) ⟨1⟩ "" ⟨k⟩ k

theorem run_pile (n : ℕ) :
    ∃ runs, run engineStep .new (pile n) = some ⟨AList.singleton ⟨1⟩ idle, runs⟩ ∧
      runs.size = n ∧ (∀ id, (runs.lookup id).isSome ↔ id.uuid < n) ∧
      ∀ id run, runs.lookup id = some run → run.state.isFinished = false := by
  induction n with
  | zero => exact ⟨∅, rfl, rfl, fun id => by simp, nofun⟩
  | succ n ih =>
    obtain ⟨runs, hrun, hsize, hstored, hlive⟩ := ih
    have hpile : pile (n + 1) = pile n ++ [.createRun (.stored _) ⟨1⟩ "" ⟨n⟩ n] := by
      rw [pile, range_succ, map_append]
      rfl
    have hnew : runs.lookup ⟨n⟩ = none := by
      rw [← Option.not_isSome_iff_eq_none, hstored]
      exact Nat.lt_irrefl n
    have hlookup := runs.lookup_insert_eq ⟨n⟩ (newRun ⟨n⟩ idle ⟨1⟩ "" n)
    have hlive' : ∀ id r, (runs.insert ⟨n⟩ (newRun ⟨n⟩ idle ⟨1⟩ "" n)).lookup id = some r →
        r.state.isFinished = false := by
      exact Table.forall_lookup_insert rfl hlive
    refine ⟨runs.insert ⟨n⟩ (newRun ⟨n⟩ idle ⟨1⟩ "" n), ?_, ?_, fun id => ?_, hlive'⟩
    · rw [run] at hrun
      rw [run, hpile, foldlM_append, hrun]
      exact congrArg (fun runs => some (⟨AList.singleton ⟨1⟩ idle, runs⟩ : WorkflowEngine))
        (evictRuns_of_live hlive')
    · rw [Table.size_insert, hnew, hsize]
      rfl
    · rw [hlookup]
      split_ifs with hid
      · rw [hid]
        exact iff_of_true rfl (Nat.lt_succ_self n)
      · rw [hstored, Nat.lt_succ_iff_lt_or_eq]
        exact (or_iff_left fun heq => hid (by rw [← heq])).symm

/-- A call for a workflow that is not registered leaves a finished run among 201. -/
theorem unknown_workflow_evicts_nothing :
    ∃ engine, run engineStep .new
        (pile 201 ++ [.change ⟨0⟩ .start, .change ⟨0⟩ (.complete "" 300)]) = some engine ∧
      engine.createRun (.stored _) ⟨2⟩ "" ⟨999⟩ 400 = (none, engine) ∧
      maxRetainedRuns < engine.runs.size ∧
      ∃ run, engine.runs.lookup ⟨0⟩ = some run ∧ run.state.isFinished = true := by
  obtain ⟨runs, hrun, hsize, hstored, -⟩ := run_pile 201
  obtain ⟨r, hr⟩ := Option.isSome_iff_exists.mp ((hstored ⟨0⟩).mpr (by decide))
  have hstart : (applyChange ⟨0⟩ runs .start).lookup ⟨0⟩ = some (RunChange.start.apply r) := by
    rw [applyChange_of_some _ hr, AList.lookup_insert]
  refine ⟨⟨AList.singleton ⟨1⟩ idle,
    applyChange ⟨0⟩ (applyChange ⟨0⟩ runs .start) (.complete "" 300)⟩, ?_, rfl, ?_, ?_⟩
  · rw [run] at hrun
    rw [run, foldlM_append, hrun]
    rfl
  · rw [size_applyChange, size_applyChange, hsize]
    decide
  · rw [applyChange_of_some _ hstart]
    exact ⟨_, AList.lookup_insert _, rfl⟩

end Workflow

end AlloyAgent
