import AlloyAgent.TopologicalLevels
import AlloyAgent.Transition

/-!
# `execute_dag`: levels of concurrent tasks

`execute_dag` sorts the items into levels and runs one level after another as a group.

* `step`: tasks are started, end, panic and are joined in any order;
* `executeDag_run`: dependencies come first, few tasks run at once, all are reported;
* `executeDag_returns`: no run is infinite, or stuck.
-/

namespace AlloyAgent.ParallelExecutor

universe u

open List Option Layering Transition

variable {τ : Type u}

inductive Phase (τ : Type u) where
  /-- at `acquire_owned` -/
  | waiting
  /-- holds a permit, the future is being polled -/
  | running
  /-- the future returned; the permit has been dropped -/
  | finished (result : Except String τ) (duration : ℕ)
  /-- the future panicked; `joinError` is what the `JoinError` prints -/
  | panicked (joinError : String)

def Phase.isActive : Phase τ → Bool
  | .waiting | .running => true
  | _ => false

def Phase.isRunning : Phase τ → Bool
  | .running => true
  | _ => false

def Phase.isWaiting : Phase τ → Bool
  | .waiting => true
  | _ => false

structure Task (τ : Type u) where
  id : String
  phase : Phase τ

/-- Result of executing a group of parallel tasks. Durations are in nanoseconds. -/
structure GroupResult (τ : Type u) where
  results : List (String × Except String τ)
  wallTime : ℕ
  cpuTime : ℕ

/-- Cumulative statistics for the executor. -/
structure ExecutorStats where
  totalTasks : ℕ
  parallelGroups : ℕ
  sequentialFallbacks : ℕ
  totalWallTimeUs : ℕ
  totalCpuTimeUs : ℕ

/-- `execute_group` between the spawns and its return. -/
structure Group (τ : Type u) where
  joinSet : List (Task τ)
  results : List (String × Except String τ)
  totalCpu : ℕ

/-- `execute_dag`, with the executor it runs on. -/
structure Dag (τ : Type u) where
  permits : ℕ
  stats : ExecutorStats
  levels : List (List String)
  group : Option (Group τ)
  groupResults : List (GroupResult τ)
  returned : Option (Except String (List (GroupResult τ)))

inductive Event (τ : Type u) where
  /-- `execute_group` is called for the next level and spawns its tasks -/
  | openGroup
  | start (id : String)
  | finish (id : String) (result : Except String τ) (duration : ℕ)
  | panic (id : String) (joinError : String)
  /-- `join_next` yields the task -/
  | join (id : String)
  /-- `join_next` yields `None`, and the group returns -/
  | closeGroup (wallTime : ℕ)
  | returnDag

/-- The name under which a task is reported whose `join_next` is an `Err`. -/
def joinErrorId : String := "<join_error>"

/-- `ParallelWorkflowExecutor::new`: the permits of a new executor. -/
def newPermits (maxConcurrency : ℕ) : ℕ := max maxConcurrency 1

/-- `execute_dag` on a new executor, after the sort. -/
def startDag (maxConcurrency : ℕ) (sorted : Except String (List (List String))) : Dag τ where
  permits := newPermits maxConcurrency
  stats := ⟨0, 0, 0, 0, 0⟩
  levels := match sorted with
    | .ok levels => levels
    | .error _ => []
  group := none
  groupResults := []
  returned := match sorted with
    | .ok _ => none
    | .error e => some (.error e)

/-- The counters that `execute_group` moves before it spawns. -/
def ExecutorStats.countGroup (st : ExecutorStats) (taskCount : ℕ) : ExecutorStats :=
  if taskCount = 1 then
    { st with
      totalTasks := st.totalTasks + taskCount
      sequentialFallbacks := st.sequentialFallbacks + 1 }
  else
    { st with
      totalTasks := st.totalTasks + taskCount
      parallelGroups := st.parallelGroups + 1 }

/-- `execute_group` up to its join loop; an empty group returns at once. -/
def openGroup (s : Dag τ) (level : List String) (rest : List (List String)) : Dag τ :=
  if level.isEmpty then
    { s with levels := rest, groupResults := s.groupResults ++ [⟨[], 0, 0⟩] }
  else
    { s with
      levels := rest
      stats := s.stats.countGroup level.length
      group := some ⟨level.map fun id => ⟨id, .waiting⟩, [], 0⟩ }

def endTask (s : Dag τ) (id : String) (phase : Phase τ) : Option (Dag τ) :=
  s.group.bind fun g =>
    (takeOut (fun t => decide (t.id = id) && t.phase.isRunning) g.joinSet).map fun r =>
      { s with
        permits := s.permits + 1
        group := some { g with joinSet := ⟨id, phase⟩ :: r.2 } }

def joinTask (g : Group τ) (t : Task τ) (rest : List (Task τ)) : Group τ :=
  match t.phase with
  | .finished result duration =>
    ⟨rest, g.results ++ [(t.id, result)], g.totalCpu + duration⟩
  | .panicked joinError =>
    ⟨rest, g.results ++ [(joinErrorId, .error ("task join error: " ++ joinError))], g.totalCpu⟩
  | _ => g

def step (s : Dag τ) : Event τ → Option (Dag τ)
  | .openGroup =>
    match s.group, s.levels with
    | none, level :: rest => some (openGroup s level rest)
    | _, _ => none
  | .start id =>
    if s.permits = 0 then none
    else s.group.bind fun g =>
      (takeOut (fun t => decide (t.id = id) && t.phase.isWaiting) g.joinSet).map fun r =>
        { s with
          permits := s.permits - 1
          group := some { g with joinSet := ⟨id, .running⟩ :: r.2 } }
  | .finish id result duration => endTask s id (.finished result duration)
  | .panic id joinError => endTask s id (.panicked joinError)
  | .join id =>
    s.group.bind fun g =>
      (takeOut (fun t => decide (t.id = id) && !t.phase.isActive) g.joinSet).map fun r =>
        { s with group := some (joinTask g r.1 r.2) }
  | .closeGroup wallTime =>
    s.group.bind fun g =>
      if g.joinSet.isEmpty then
        some { s with
          group := none
          groupResults := s.groupResults ++ [⟨g.results, wallTime, g.totalCpu⟩]
          stats := { s.stats with
            totalWallTimeUs := s.stats.totalWallTimeUs + wallTime / 1000
            totalCpuTimeUs := s.stats.totalCpuTimeUs + g.totalCpu / 1000 } }
      else none
  | .returnDag =>
    match s.group, s.levels, s.returned with
    | none, [], none => some { s with returned := some (.ok s.groupResults) }
    | _, _, _ => none

/-! ## What one event does -/

variable {s s' : Dag τ} {g : Group τ} {e : Event τ} {es : List (Event τ)} {t : Task τ}
  {rest : List (Task τ)} {x : String} {items : List WorkItem} {levels closed : List (List String)}

theorem step_openGroup (h : step s .openGroup = some s') :
    ∃ level rest, s.group = none ∧ s.levels = level :: rest ∧ s' = openGroup s level rest := by
  simp only [step] at h
  split at h
  · rename_i level rest hgroup hlevels
    exact ⟨level, rest, hgroup, hlevels, (some.inj h).symm⟩
  · cases h

/-- A task with the given id is taken out of the group, and another group is put back. -/
theorem takeTask_eq_some {s s' : Dag τ} {x : String} {p : Phase τ → Bool}
    {f : Group τ → Task τ × List (Task τ) → Dag τ}
    (h : (s.group.bind fun g =>
      (takeOut (fun t => decide (t.id = x) && p t.phase) g.joinSet).map (f g)) = some s') :
    ∃ g ph rest, s.group = some g ∧ p ph = true ∧ g.joinSet.Perm (⟨x, ph⟩ :: rest) ∧
      s' = f g (⟨x, ph⟩, rest) := by
  obtain ⟨g, hg, h⟩ := bind_eq_some_iff.mp h
  obtain ⟨⟨⟨y, ph⟩, rest⟩, htake, rfl⟩ := map_eq_some_iff.mp h
  obtain ⟨hp, hperm⟩ := takeOut_eq_some htake
  rw [Bool.and_eq_true, decide_eq_true_eq] at hp
  obtain ⟨rfl, hph⟩ := hp
  exact ⟨g, ph, rest, hg, hph, hperm, rfl⟩

theorem step_start (h : step s (.start x) = some s') :
    ∃ g rest, s.group = some g ∧ g.joinSet.Perm (⟨x, .waiting⟩ :: rest) ∧ 0 < s.permits ∧
      s' = { s with
        permits := s.permits - 1
        group := some { g with joinSet := ⟨x, .running⟩ :: rest } } := by
  simp only [step] at h
  split at h
  · cases h
  · rename_i hpermits
    obtain ⟨g, ph, rest, hg, hph, hperm, rfl⟩ := takeTask_eq_some h
    cases ph <;> simp only [Phase.isWaiting, Bool.false_eq_true] at hph
    exact ⟨g, rest, hg, hperm, Nat.pos_of_ne_zero hpermits, rfl⟩

theorem endTask_eq_some (h : endTask s x ph = some s') :
    ∃ g rest, s.group = some g ∧ g.joinSet.Perm (⟨x, .running⟩ :: rest) ∧
      s' = { s with
        permits := s.permits + 1
        group := some { g with joinSet := ⟨x, ph⟩ :: rest } } := by
  obtain ⟨g, ph, rest, hg, hph, hperm, rfl⟩ := takeTask_eq_some h
  cases ph <;> simp only [Phase.isRunning, Bool.false_eq_true] at hph
  exact ⟨g, rest, hg, hperm, rfl⟩

theorem step_join (h : step s (.join x) = some s') :
    ∃ g t rest, s.group = some g ∧ g.joinSet.Perm (t :: rest) ∧ t.phase.isActive = false ∧
      s' = { s with group := some (joinTask g t rest) } := by
  obtain ⟨g, ph, rest, hg, hph, hperm, rfl⟩ := @takeTask_eq_some _ s s' x (!·.isActive) _ h
  exact ⟨g, ⟨x, ph⟩, rest, hg, hperm, by simpa using hph, rfl⟩

theorem step_closeGroup (h : step s (.closeGroup w) = some s') :
    ∃ g, s.group = some g ∧ g.joinSet = [] ∧ s'.group = none ∧ s'.levels = s.levels ∧
      s'.permits = s.permits ∧ s'.returned = s.returned ∧
      s'.groupResults = s.groupResults ++ [⟨g.results, w, g.totalCpu⟩] := by
  obtain ⟨g, hg, h⟩ := bind_eq_some_iff.mp h
  split at h
  · rename_i hempty
    cases h
    exact ⟨g, hg, isEmpty_iff.mp hempty, rfl, rfl, rfl, rfl, rfl⟩
  · cases h

theorem step_returnDag (h : step s .returnDag = some s') :
    s.group = none ∧ s.levels = [] ∧ s' = { s with returned := some (.ok s.groupResults) } := by
  simp only [step] at h
  split at h
  · rename_i hgroup hlevels _
    exact ⟨hgroup, hlevels, (some.inj h).symm⟩
  · cases h

theorem joinSet_joinTask (g : Group τ) (rest : List (Task τ)) (ht : t.phase.isActive = false) :
    (joinTask g t rest).joinSet = rest := by
  obtain ⟨x, ph⟩ := t
  cases ph with
  | waiting | running => simp [Phase.isActive] at ht
  | finished result duration | panicked joinError => rfl

/-! ## The concurrency limit -/

def running (s : Dag τ) : ℕ :=
  match s.group with
  | some g => g.joinSet.countP fun t => t.phase.isRunning
  | none => 0

theorem countP_isRunning_spawned (level : List String) :
    (level.map fun id => (⟨id, .waiting⟩ : Task τ)).countP (fun t => t.phase.isRunning) = 0 := by
  rw [countP_map, countP_eq_zero]
  simp [Phase.isRunning]

theorem permits_add_running_step (h : step s e = some s') :
    s'.permits + running s' = s.permits + running s := by
  cases e with
  | openGroup =>
    obtain ⟨level, rest, hg, -, rfl⟩ := step_openGroup h
    rw [openGroup]
    split
    · simp [running, hg]
    · simp only [running, hg, countP_isRunning_spawned]
  | start x =>
    obtain ⟨g, rest, hg, hperm, hpos, rfl⟩ := step_start h
    simp only [running, hg, hperm.countP_eq, countP_cons, Phase.isRunning]
    simp only [↓reduceIte, Bool.false_eq_true]
    omega
  | finish x result duration =>
    obtain ⟨g, rest, hg, hperm, rfl⟩ := endTask_eq_some h
    simp only [running, hg, hperm.countP_eq, countP_cons, Phase.isRunning]
    simp only [↓reduceIte, Bool.false_eq_true]
    omega
  | panic x joinError =>
    obtain ⟨g, rest, hg, hperm, rfl⟩ := endTask_eq_some h
    simp only [running, hg, hperm.countP_eq, countP_cons, Phase.isRunning]
    simp only [↓reduceIte, Bool.false_eq_true]
    omega
  | join x =>
    obtain ⟨g, t, rest, hg, hperm, ht, rfl⟩ := step_join h
    have hrun : t.phase.isRunning = false := by
      cases hph : t.phase <;> simp_all [Phase.isActive, Phase.isRunning]
    simp only [running, hg, hperm.countP_eq, countP_cons, joinSet_joinTask g rest ht, hrun]
    simp
  | closeGroup w =>
    obtain ⟨g, hg, hempty, hg', -, hpermits, -, -⟩ := step_closeGroup h
    simp [running, hg, hg', hempty, hpermits]
  | returnDag =>
    obtain ⟨-, -, rfl⟩ := step_returnDag h
    rfl

/-! ## Which name every task is reported under -/

def Task.reportName (t : Task τ) : String :=
  match t.phase with
  | .panicked _ => joinErrorId
  | _ => t.id

def reportedIds (groups : List (GroupResult τ)) : List String :=
  groups.flatMap fun g => g.results.map Prod.fst

def panics (es : List (Event τ)) : List String :=
  es.filterMap fun
    | .panic id _ => some id
    | _ => none

/-- How often a name is reported or will be. -/
def account (s : Dag τ) (y : String) : ℕ :=
  (reportedIds s.groupResults).count y +
    (match s.group with
      | some g => (g.results.map Prod.fst).count y + (g.joinSet.map Task.reportName).count y
      | none => 0) +
    s.levels.flatten.count y

theorem map_reportName_spawned (level : List String) :
    (level.map fun id => (⟨id, .waiting⟩ : Task τ)).map Task.reportName = level := by
  simp [Task.reportName, Function.comp_def]

theorem count_joinTask (g : Group τ) (rest : List (Task τ)) (ht : t.phase.isActive = false)
    (y : String) :
    ((joinTask g t rest).results.map Prod.fst).count y =
      (g.results.map Prod.fst).count y + [t.reportName].count y := by
  obtain ⟨x, ph⟩ := t
  cases ph with
  | waiting | running => simp [Phase.isActive] at ht
  | finished result duration => simp [joinTask, Task.reportName]
  | panicked joinError => simp [joinTask, Task.reportName]

/-- A panic moves one task from its id to the name `<join_error>`, and that is all. -/
theorem account_step (h : step s e = some s') (y : String) :
    account s' y + (panics [e]).count y =
      account s y + (List.replicate (panics [e]).length joinErrorId).count y := by
  cases e with
  | openGroup =>
    obtain ⟨level, rest, hg, hlevels, rfl⟩ := step_openGroup h
    rw [openGroup]
    split
    · rename_i hempty
      simp [account, panics, hg, hlevels, isEmpty_iff.mp hempty, reportedIds]
    · simp only [account, panics, hg, hlevels, map_reportName_spawned, flatten_cons,
        count_append, map_nil, count_nil, filterMap_cons, filterMap_nil,
        length_nil, replicate_zero]
      omega
  | start x =>
    obtain ⟨g, rest, hg, hperm, -, rfl⟩ := step_start h
    have hnames := (hperm.map Task.reportName).count_eq y
    simp only [account, panics, hg, hnames, map_cons, Task.reportName, filterMap_cons,
      filterMap_nil, length_nil, replicate_zero]
  | finish x result duration =>
    obtain ⟨g, rest, hg, hperm, rfl⟩ := endTask_eq_some h
    have hnames := (hperm.map Task.reportName).count_eq y
    simp only [account, panics, hg, hnames, map_cons, Task.reportName, filterMap_cons,
      filterMap_nil, length_nil, replicate_zero]
  | panic x joinError =>
    obtain ⟨g, rest, hg, hperm, rfl⟩ := endTask_eq_some h
    have hnames := (hperm.map Task.reportName).count_eq y
    simp only [account, panics, hg, hnames, map_cons, Task.reportName, filterMap_cons,
      filterMap_nil, length_singleton, replicate_one, count_cons,
      count_nil]
    omega
  | join x =>
    obtain ⟨g, t, rest, hg, hperm, ht, rfl⟩ := step_join h
    have hnames := (hperm.map Task.reportName).count_eq y
    rw [map_cons, count_cons] at hnames
    simp only [account, panics, hg, hnames, count_joinTask g rest ht, joinSet_joinTask g rest ht,
      count_cons, count_nil, filterMap_cons, filterMap_nil, length_nil,
      replicate_zero]
    omega
  | closeGroup w =>
    obtain ⟨g, hg, hempty, hg', hlevels, -, -, hresults⟩ := step_closeGroup h
    simp [account, panics, hg, hg', hempty, hlevels, hresults, reportedIds]
  | returnDag =>
    obtain ⟨-, -, rfl⟩ := step_returnDag h
    rfl

/-- What has been returned is the list of all groups, once nothing is left. -/
def ReturnsAll (s : Dag τ) : Prop :=
  ∀ groups, s.returned = some (.ok groups) →
    groups = s.groupResults ∧ s.group = none ∧ s.levels = []

theorem ReturnsAll.ne_of_group (hs : ReturnsAll s) (hg : s.group = some g)
    (groups : List (GroupResult τ)) : s.returned ≠ some (.ok groups) := by
  intro hret
  obtain ⟨-, hnone, -⟩ := hs groups hret
  rw [hg] at hnone
  cases hnone

theorem ReturnsAll.step (hs : ReturnsAll s) (h : step s e = some s') : ReturnsAll s' := by
  -- only `returnDag` is possible, or changes `returned`, when nothing is left
  cases e with
  | openGroup =>
    obtain ⟨level, rest, hg, hlevels, rfl⟩ := step_openGroup h
    intro groups hret
    rw [openGroup] at hret
    split at hret <;> · obtain ⟨-, -, hnil⟩ := hs groups hret; simp [hlevels] at hnil
  | start x =>
    obtain ⟨g, rest, hg, -, -, rfl⟩ := step_start h
    exact fun groups hret => absurd hret (hs.ne_of_group hg groups)
  | finish x result duration =>
    obtain ⟨g, rest, hg, -, rfl⟩ := endTask_eq_some h
    exact fun groups hret => absurd hret (hs.ne_of_group hg groups)
  | panic x joinError =>
    obtain ⟨g, rest, hg, -, rfl⟩ := endTask_eq_some h
    exact fun groups hret => absurd hret (hs.ne_of_group hg groups)
  | join x =>
    obtain ⟨g, t, rest, hg, -, -, rfl⟩ := step_join h
    exact fun groups hret => absurd hret (hs.ne_of_group hg groups)
  | closeGroup w =>
    obtain ⟨g, hg, -, -, -, -, hret', -⟩ := step_closeGroup h
    exact fun groups hret => absurd (hret' ▸ hret) (hs.ne_of_group hg groups)
  | returnDag =>
    obtain ⟨hg, hlevels, rfl⟩ := step_returnDag h
    intro groups hret
    exact ⟨(by simpa using hret : s.groupResults = groups).symm, hg, hlevels⟩

/-! ## Dependencies end before a task starts -/

def Ended (es : List (Event τ)) (a : String) : Prop :=
  (∃ result duration, Event.finish a result duration ∈ es) ∨
    ∃ joinError, Event.panic a joinError ∈ es

theorem Ended.append (h : Ended es a) (es' : List (Event τ)) : Ended (es ++ es') a :=
  h.imp (fun ⟨r, d, hm⟩ => ⟨r, d, mem_append_left _ hm⟩)
    fun ⟨m, hm⟩ => ⟨m, mem_append_left _ hm⟩

/-- When a task started, all tasks of the items it depends on had ended. -/
def DependenciesFirst (items : List WorkItem) (es : List (Event τ)) : Prop :=
  ∀ past x future, es = past ++ .start x :: future →
    ∀ a, DependsOn items a x → Ended past a

/-- The tasks of the levels `closed` have ended, those of the open level are in the set. -/
structure Progress (levels : List (List String)) (es : List (Event τ)) (s : Dag τ)
    (closed : List (List String)) : Prop where
  /-- tasks of earlier levels -/
  ended : ∀ a ∈ closed.flatten, Ended es a
  /-- between two groups -/
  split_none : s.group = none → levels = closed ++ s.levels
  split_some : ∀ g, s.group = some g → ∃ level, levels = closed ++ level :: s.levels ∧
    (∀ t ∈ g.joinSet, t.id ∈ level) ∧
    ∀ a ∈ level, Ended es a ∨ ∃ t ∈ g.joinSet, t.id = a ∧ t.phase.isActive = true

theorem Progress.change (h : Progress levels es s closed) (e : Event τ) (hg : s.group = some g)
    (hperm : g.joinSet.Perm (t :: rest)) (hg' : s'.group = some g') (hlevels : s'.levels = s.levels)
    (hkeep : ∀ u ∈ rest, u ∈ g'.joinSet) (hnew : ∀ u ∈ g'.joinSet, u ∈ rest ∨ u.id = t.id)
    (ht : t.phase.isActive = true →
      Ended (es ++ [e]) t.id ∨ ∃ u ∈ g'.joinSet, u.id = t.id ∧ u.phase.isActive = true) :
    Progress levels (es ++ [e]) s' closed := by
  obtain ⟨level, hsplit, hmem, hlevel⟩ := h.split_some g hg
  refine ⟨fun a ha => (h.ended a ha).append _, fun hnone => by simp [hg'] at hnone, ?_⟩
  intro g'' hg''
  obtain rfl : g' = g'' := some.inj (hg'.symm.trans hg'')
  refine ⟨level, by rw [hlevels]; exact hsplit, fun u hu => ?_, fun a ha => ?_⟩
  · rcases hnew u hu with hu | hu
    · exact hmem u (hperm.mem_iff.mpr (mem_cons_of_mem _ hu))
    · rw [hu]
      exact hmem t (hperm.mem_iff.mpr mem_cons_self)
  · rcases hlevel a ha with hended | ⟨u, hu, rfl, hactive⟩
    · exact Or.inl (hended.append _)
    · rcases mem_cons.mp (hperm.mem_iff.mp hu) with rfl | hu
      · exact ht hactive
      · exact Or.inr ⟨u, hkeep u hu, rfl, hactive⟩

/-- A task goes on to the phase `ph`. -/
theorem Progress.rephase (h : Progress levels es s closed) (e : Event τ) (permits : ℕ)
    (hg : s.group = some g) (hperm : g.joinSet.Perm (⟨x, ph₀⟩ :: rest))
    (hx : Ended (es ++ [e]) x ∨ ph.isActive = true) :
    Progress levels (es ++ [e])
      { s with permits := permits, group := some { g with joinSet := ⟨x, ph⟩ :: rest } }
      closed := by
  refine h.change e hg hperm rfl rfl (fun u hu => mem_cons_of_mem _ hu) (fun u hu => ?_)
    fun _ => hx.imp_right fun hactive => ⟨_, mem_cons_self, rfl, hactive⟩
  rcases mem_cons.mp hu with rfl | hu
  · exact Or.inr rfl
  · exact Or.inl hu

theorem Progress.step {closed : List (List String)} (hp : Progress levels es s closed)
    (h : step s e = some s') : ∃ closed', Progress levels (es ++ [e]) s' closed' := by
  cases e with
  | openGroup =>
    obtain ⟨level, rest, hg, hlevels, rfl⟩ := step_openGroup h
    have hsplit := hp.split_none hg
    rw [hlevels] at hsplit
    rw [openGroup]
    split
    · -- an empty group is closed at once
      rename_i hempty
      rw [isEmpty_iff.mp hempty] at hsplit
      refine ⟨closed ++ [[]], fun a ha => (hp.ended a (by simpa using ha)).append _, fun _ => ?_,
        fun g hg' => by simp [hg] at hg'⟩
      simpa using hsplit
    · refine ⟨closed, fun a ha => (hp.ended a ha).append _, fun hnone => by simp at hnone, ?_⟩
      intro g hg'
      cases hg'
      refine ⟨level, hsplit, by simp, fun a ha => Or.inr ⟨⟨a, .waiting⟩, ?_, rfl, rfl⟩⟩
      exact mem_map_of_mem ha
  | start x =>
    obtain ⟨g, rest, hg, hperm, -, rfl⟩ := step_start h
    exact ⟨closed, hp.rephase _ _ hg hperm (Or.inr rfl)⟩
  | finish x result duration =>
    obtain ⟨g, rest, hg, hperm, rfl⟩ := endTask_eq_some h
    exact ⟨closed, hp.rephase _ _ hg hperm (Or.inl (Or.inl ⟨result, duration, by simp⟩))⟩
  | panic x joinError =>
    obtain ⟨g, rest, hg, hperm, rfl⟩ := endTask_eq_some h
    exact ⟨closed, hp.rephase _ _ hg hperm (Or.inl (Or.inr ⟨joinError, by simp⟩))⟩
  | join x =>
    obtain ⟨g, t, rest, hg, hperm, ht, rfl⟩ := step_join h
    refine ⟨closed, hp.change _ hg hperm rfl rfl ?_ ?_ ?_⟩
    · intro u hu
      rwa [joinSet_joinTask g rest ht]
    · intro u hu
      rw [joinSet_joinTask g rest ht] at hu
      exact Or.inl hu
    · intro hactive
      simp [ht] at hactive
  | closeGroup w =>
    obtain ⟨g, hg, hempty, hg', hlevels, -, -, -⟩ := step_closeGroup h
    obtain ⟨level, hsplit, -, hlevel⟩ := hp.split_some g hg
    refine ⟨closed ++ [level], fun a ha => ?_, fun _ => ?_, fun g' hsome => by simp [hg'] at hsome⟩
    · rw [flatten_append, flatten_singleton, mem_append] at ha
      rcases ha with ha | ha
      · exact (hp.ended a ha).append _
      · rcases hlevel a ha with hended | ⟨t, ht, -⟩
        · exact hended.append _
        · simp [hempty] at ht
    · rw [hlevels, hsplit]
      simp
  | returnDag =>
    obtain ⟨hg, -, rfl⟩ := step_returnDag h
    exact ⟨closed, fun a ha => (hp.ended a ha).append _, hp.split_none,
      fun g hsome => by simp [hg] at hsome⟩

theorem DependenciesFirst.snoc {items : List WorkItem} {es : List (Event τ)} {e : Event τ}
    (h : DependenciesFirst items es)
    (he : ∀ x, e = .start x → ∀ a, DependsOn items a x → Ended es a) :
    DependenciesFirst items (es ++ [e]) := by
  intro past x future heq
  rcases eq_nil_or_concat future with rfl | ⟨future, e', rfl⟩
  · obtain ⟨rfl, hlast⟩ := append_inj' heq rfl
    exact he x (by simpa using hlast)
  · rw [concat_eq_append, ← cons_append, ← append_assoc] at heq
    obtain ⟨rfl, -⟩ := append_inj' heq rfl
    exact h past x future rfl

theorem Progress.dependencies_ended (hpeeled : Peeled (ids items) (DependsOn items) levels)
    (hp : Progress levels es s closed) (h : ParallelExecutor.step s (.start x) = some s') :
    ∀ a, DependsOn items a x → Ended es a := by
  intro a hax
  obtain ⟨g, rest, hg, hperm, -, -⟩ := step_start h
  obtain ⟨level, hsplit, hmem, -⟩ := hp.split_some g hg
  have hx : x ∈ level := hmem _ (hperm.mem_iff.mpr mem_cons_self)
  have hlevel : levels[closed.length]? = some level := by
    rw [hsplit, getElem?_append_right le_rfl, Nat.sub_self, getElem?_cons_zero]
  obtain ⟨j, l, hj, hl, hal⟩ := hpeeled.exists_earlier hlevel hx hax
  rw [hsplit, getElem?_append_left hj] at hl
  exact hp.ended a (mem_flatten.mpr ⟨l, mem_of_getElem? hl, hal⟩)

/-- What holds after the events `es`. -/
structure DagInv (n : ℕ) (items : List WorkItem) (levels : List (List String))
    (es : List (Event τ)) (s : Dag τ) : Prop where
  permits_eq : s.permits + running s = newPermits n
  account_eq : ∀ y, account s y + (panics es).count y =
    levels.flatten.count y + (List.replicate (panics es).length joinErrorId).count y
  returnsAll : ReturnsAll s
  progress : ∃ closed, Progress levels es s closed
  dependenciesFirst : DependenciesFirst items es

theorem panics_append (es es' : List (Event τ)) : panics (es ++ es') = panics es ++ panics es' :=
  filterMap_append ..

theorem DagInv.step {n : ℕ} (hpeeled : Peeled (ids items) (DependsOn items) levels)
    (es : List (Event τ)) (s : Dag τ) (e : Event τ) (s' : Dag τ) (hinv : DagInv n items levels es s)
    (h : step s e = some s') :
    DagInv n items levels (es ++ [e]) s' where
  permits_eq := by rw [permits_add_running_step h, hinv.permits_eq]
  account_eq y := by
    have hold := hinv.account_eq y
    have hstep := account_step h y
    rw [panics_append, count_append, length_append, replicate_add,
      count_append]
    omega
  returnsAll := hinv.returnsAll.step h
  progress := by
    obtain ⟨closed, hp⟩ := hinv.progress
    exact hp.step h
  dependenciesFirst := by
    refine hinv.dependenciesFirst.snoc ?_
    rintro x rfl
    obtain ⟨closed, hp⟩ := hinv.progress
    exact hp.dependencies_ended hpeeled h

theorem dagInv_start (n : ℕ) (items : List WorkItem) (sorted : Except String (List (List String))) :
    DagInv n items (startDag n sorted : Dag τ).levels [] (startDag n sorted : Dag τ) where
  permits_eq := rfl
  account_eq y := by simp [account, startDag, reportedIds, panics]
  returnsAll := by
    intro groups hret
    cases sorted <;> simp [startDag] at hret
  progress := ⟨[], ⟨by simp, fun _ => rfl, fun g hg => by simp [startDag] at hg⟩⟩
  dependenciesFirst := by
    intro past x future heq
    simp at heq

/-- Replacing all elements by `y` changes nothing exactly if they are `y`. -/
theorem count_replicate_iff {l : List String} {y : String} :
    (∀ x, l.count x = (List.replicate l.length y).count x) ↔ ∀ x ∈ l, x = y := by
  rw [← perm_iff_count]
  refine ⟨?_, ?_⟩
  · intro hperm x hx
    exact eq_of_mem_replicate (hperm.mem_iff.mp hx)
  · intro hall
    rw [← eq_replicate_iff.mpr ⟨rfl, hall⟩]

theorem mem_panics : x ∈ panics es ↔ ∃ joinError, Event.panic x joinError ∈ es := by
  simp only [panics, mem_filterMap]
  refine ⟨?_, ?_⟩
  · rintro ⟨e, he, hx⟩
    cases e <;> simp at hx
    subst hx
    exact ⟨_, he⟩
  · rintro ⟨m, hm⟩
    exact ⟨_, hm, rfl⟩

/-- **Every run of `execute_dag`**: dependencies first, bounded concurrency, each id reported. -/
theorem executeDag_run (n : ℕ) (order : IterOrder (String × ℕ)) (items : List WorkItem)
    (sorted : Except String (List (List String)))
    (hsort : topologicalLevels order items = .ok sorted) (es : List (Event τ)) (s : Dag τ)
    (hrun : run step (startDag n sorted) es = some s) :
    DependenciesFirst items es ∧ running s ≤ newPermits n ∧
      ∀ groups, s.returned = some (.ok groups) →
        ((reportedIds groups).Perm (items.map WorkItem.id).dedup ↔
          ∀ x joinError, Event.panic x joinError ∈ es → x = joinErrorId) := by
  cases sorted with
  | error e =>
    -- after a failed sort the call has returned, and nothing can happen
    cases es with
    | cons e' es => cases e' <;> simp [run_cons, step, startDag, endTask] at hrun
    | nil =>
      cases hrun
      refine ⟨(dagInv_start n items (.error e)).dependenciesFirst, Nat.zero_le _, ?_⟩
      intro groups hret
      simp [startDag] at hret
  | ok levels =>
    have hpeeled := (peeled_of_topologicalLevels hsort).1
    have hinv : DagInv n items levels es s :=
      run_history (DagInv.step hpeeled) es [] (dagInv_start n items (.ok levels)) hrun
    refine ⟨hinv.dependenciesFirst, hinv.permits_eq ▸ Nat.le_add_left _ _, fun groups hret => ?_⟩
    obtain ⟨rfl, hgroup, hlevels⟩ := hinv.returnsAll groups hret
    have hcount : ∀ y, (reportedIds s.groupResults).count y + (panics es).count y =
        (items.map WorkItem.id).dedup.count y +
          (List.replicate (panics es).length joinErrorId).count y := by
      intro y
      have hy := hinv.account_eq y
      rw [(flatten_perm_dedup hsort).count_eq y] at hy
      simpa [account, hgroup, hlevels] using hy
    have hpanics : (∀ x joinError, Event.panic x joinError ∈ es → x = joinErrorId) ↔
        ∀ x ∈ panics es, x = joinErrorId := by
      simp only [mem_panics, forall_exists_index]
    rw [hpanics, ← count_replicate_iff, perm_iff_count]
    exact forall_congr' fun y => by have := hcount y; omega

def chainEvents : List (Event Unit) :=
  [.openGroup, .start "a", .finish "a" (.ok ()) 5000, .join "a", .closeGroup 7000,
    .openGroup, .start "b", .finish "b" (.error "no") 5000, .join "b", .closeGroup 6000,
    .returnDag]

def chainGroups : List (GroupResult Unit) :=
  [⟨[("a", .ok ())], 7000, 5000⟩, ⟨[("b", .error "no")], 6000, 5000⟩]

theorem chain_run :
    run step (startDag 0 (.ok [["a"], ["b"]])) chainEvents =
        some ⟨1, ⟨2, 0, 2, 13, 10⟩, [], none, chainGroups, some (.ok chainGroups)⟩ ∧
      DependenciesFirst [⟨"b", ["a"]⟩, ⟨"a", []⟩] chainEvents ∧
      (reportedIds chainGroups).Perm ["b", "a"] := by
  have hsort : topologicalLevels (.stored _) [⟨"b", ["a"]⟩, ⟨"a", []⟩] =
      .ok (.ok [["a"], ["b"]]) := by
    decide +kernel
  have hrun : run step (startDag 0 (.ok [["a"], ["b"]])) chainEvents =
      some ⟨1, ⟨2, 0, 2, 13, 10⟩, [], none, chainGroups, some (.ok chainGroups)⟩ := rfl
  obtain ⟨hfirst, -, hreport⟩ := executeDag_run 0 (.stored _) _ _ hsort _ _ hrun
  exact ⟨hrun, hfirst, (hreport chainGroups rfl).mpr (by simp [chainEvents])⟩

/-- A task that panics is not reported under its own id. -/
theorem panicked_task_renamed :
    ∃ s : Dag Unit,
      topologicalLevels (.stored _) [⟨"a", []⟩] = .ok (.ok [["a"]]) ∧
        run step (startDag 1 (.ok [["a"]]))
          [.openGroup, .start "a", .panic "a" "task 1 panicked", .join "a", .closeGroup 7,
            .returnDag] = some s ∧
        ∃ groups, s.returned = some (.ok groups) ∧ reportedIds groups = ["<join_error>"] ∧
          ¬ (reportedIds groups).Perm ["a"] :=
  ⟨_, by decide +kernel, rfl, _, rfl, rfl, by decide⟩

/-! ## The call returns -/

/-- The events that are left for a task. -/
def Phase.toGo : Phase τ → ℕ
  | .waiting => 3
  | .running => 2
  | .finished _ _ | .panicked _ => 1

/-- A bound for the events that are left. -/
def toGo (s : Dag τ) : ℕ :=
  (s.levels.map fun level => 3 * level.length + 2).sum +
    (match s.group with
      | some g => (g.joinSet.map fun t => t.phase.toGo).sum + 1
      | none => 0) +
    if s.returned.isNone then 1 else 0

/-- A task goes on to the phase `ph`. -/
theorem toGo_rephase (permits : ℕ) (hg : s.group = some g)
    (hperm : g.joinSet.Perm (⟨x, ph₀⟩ :: rest)) (hlt : ph.toGo < ph₀.toGo) :
    toGo { s with permits := permits, group := some { g with joinSet := ⟨x, ph⟩ :: rest } } <
      toGo s := by
  have hsum := (hperm.map fun t => t.phase.toGo).sum_eq
  simp only [toGo, hg, hsum, map_cons, sum_cons]
  omega

theorem sum_toGo_spawned (level : List String) :
    ((level.map fun id => (⟨id, .waiting⟩ : Task τ)).map fun t => t.phase.toGo).sum =
      3 * level.length := by
  induction level with
  | nil => rfl
  | cons id level ih =>
    simp only [map_cons, sum_cons, length_cons, Phase.toGo.eq_1, ih]
    omega

theorem toGo_step (h : step s e = some s') : toGo s' < toGo s := by
  cases e with
  | openGroup =>
    obtain ⟨level, rest, hg, hlevels, rfl⟩ := step_openGroup h
    rw [openGroup]
    split
    · simp only [toGo, hg, hlevels, map_cons, sum_cons]
      omega
    · simp only [toGo, hg, hlevels, map_cons, sum_cons, sum_toGo_spawned]
      omega
  | start x =>
    obtain ⟨g, rest, hg, hperm, -, rfl⟩ := step_start h
    exact toGo_rephase _ hg hperm (Nat.lt_succ_self 2)
  | finish x result duration =>
    obtain ⟨g, rest, hg, hperm, rfl⟩ := endTask_eq_some h
    exact toGo_rephase _ hg hperm (Nat.lt_succ_self 1)
  | panic x joinError =>
    obtain ⟨g, rest, hg, hperm, rfl⟩ := endTask_eq_some h
    exact toGo_rephase _ hg hperm (Nat.lt_succ_self 1)
  | join x =>
    obtain ⟨g, t, rest, hg, hperm, ht, rfl⟩ := step_join h
    have hsum := (hperm.map fun t => t.phase.toGo).sum_eq
    have hpos : 0 < t.phase.toGo := by cases t.phase <;> simp [Phase.toGo]
    simp only [toGo, hg, hsum, joinSet_joinTask g rest ht, map_cons, sum_cons]
    omega
  | closeGroup w =>
    obtain ⟨g, hg, hempty, hg', hlevels, -, hret, -⟩ := step_closeGroup h
    simp only [toGo, hg, hg', hempty, hlevels, hret, map_nil, sum_nil]
    omega
  | returnDag =>
    simp only [step] at h
    split at h
    · rename_i hg hlevels hret
      cases h
      simp [toGo, hg, hlevels, hret]
    · cases h

/-- While no task runs and permits are free, an event is possible until the call has returned. -/
theorem exists_step (hpermits : 0 < s.permits) (hret : s.returned = none) (hidle : running s = 0) :
    ∃ e, (step s e).isSome = true := by
  cases hg : s.group with
  | none =>
    cases hlevels : s.levels with
    | nil => exact ⟨.returnDag, by simp only [step, hg, hlevels, hret, isSome_some]⟩
    | cons level rest => exact ⟨.openGroup, by simp only [step, hg, hlevels, isSome_some]⟩
  | some g =>
    have htake (p : Phase τ → Bool) (t : Task τ) (ht : t ∈ g.joinSet) (hp : p t.phase = true) :
        ∃ r, takeOut (fun u => decide (u.id = t.id) && p u.phase) g.joinSet = some r :=
      exists_takeOut ht (by simp [hp])
    cases hset : g.joinSet with
    | nil => exact ⟨.closeGroup 0, by simp [step, hg, hset]⟩
    | cons t rest =>
      have ht : t ∈ g.joinSet := hset ▸ mem_cons_self
      cases hphase : t.phase with
      | waiting =>
        obtain ⟨r, hr⟩ := htake Phase.isWaiting t ht (by rw [hphase]; rfl)
        exact ⟨.start t.id, by simp [step, hpermits.ne', hg, hr]⟩
      | running =>
        simp only [running, hg, countP_eq_zero] at hidle
        exact absurd (by rw [hphase]; rfl) (hidle t ht)
      | finished result duration | panicked joinError =>
        obtain ⟨r, hr⟩ := htake (!·.isActive) t ht (by rw [hphase]; rfl)
        exact ⟨.join t.id, by simp [step, hg, hr]⟩

/-- **`execute_dag` returns**: no run is longer than three events for each task and two for each
level, and the return; and before it returns there is nothing to wait for but running tasks. -/
theorem executeDag_returns (n : ℕ) (order : IterOrder (String × ℕ)) (items : List WorkItem)
    (levels : List (List String)) (hsort : topologicalLevels order items = .ok (.ok levels))
    (es : List (Event τ)) (s : Dag τ) (hrun : run step (startDag n (.ok levels)) es = some s) :
    es.length ≤ 3 * (items.map WorkItem.id).dedup.length + 2 * levels.length + 1 ∧
      (s.returned = none → running s = 0 → ∃ e, (step s e).isSome = true) := by
  have hlen := length_le_of_measure (fun _ _ _ => toGo_step) es hrun
  have hsum : (levels.map fun level => 3 * level.length + 2).sum =
      3 * levels.flatten.length + 2 * levels.length := by
    clear hsort hrun hlen
    induction levels with
    | nil => rfl
    | cons level levels ih =>
      simp only [map_cons, sum_cons, ih, flatten_cons, length_append, length_cons]
      omega
  have hpermits : s.permits + running s = newPermits n :=
    run_invariant (fun _ _ _ hs h => (permits_add_running_step h).trans hs) es rfl hrun
  constructor
  · rw [← (flatten_perm_dedup hsort).length_eq]
    simp only [toGo, startDag, hsum, Option.isNone_none] at hlen
    simp only [↓reduceIte] at hlen
    omega
  · intro hret hidle
    rw [hidle, Nat.add_zero, newPermits] at hpermits
    exact exists_step (by omega) hret hidle

theorem chain_returns :
    chainEvents.length ≤ 3 * 2 + 2 * 2 + 1 := by
  have hsort : topologicalLevels (.stored _) [⟨"b", ["a"]⟩, ⟨"a", []⟩] =
      .ok (.ok [["a"], ["b"]]) := by
    decide +kernel
  exact (executeDag_returns 0 (.stored _) _ _ hsort chainEvents _ rfl).1

end AlloyAgent.ParallelExecutor
