import AlloyAgent.SandboxMemory

/-!
# Timeouts of WASM guests

A guest is interrupted through the epoch of the engine: `execute_sync` sets the deadline of its
store to the next epoch and starts a thread that sleeps for the timeout and then increments the
epoch.

* `stepEngine`: the executions of one engine, and its epoch;
* `step_jobs`: what one step does to the executions;
* `own_timeout_iff`: the runs in which only its own timeout interrupts a guest.
-/

namespace AlloyAgent.Sandbox

open List Transition

abbrev Time := ℕ

def second : Time := 1000000000

inductive Stage where
  | instantiate
  | alloc
  | execute
  deriving DecidableEq

/-- How an execution has ended: with an interrupt of the guest, or in another way. -/
inductive Ending where
  | interrupted (stage : Stage)
  | other
  deriving DecidableEq

/-- Where an execution stands. `host` is the code of the host before a call into the guest. -/
inductive Phase where
  | compiling
  | armed (deadline : ℕ)
  | host (next : Stage) (deadline : ℕ)
  | guest (stage : Stage) (deadline : ℕ)
  | ended (ending : Ending) (time : Time)
  deriving DecidableEq

structure Job where
  config : SandboxConfig
  startedAt : Time
  phase : Phase

def Job.Expired (job : Job) (now : Time) : Prop :=
  job.startedAt + job.config.timeout * second ≤ now

instance Job.decidableExpired (job : Job) (now : Time) : Decidable (job.Expired now) :=
  inferInstanceAs (Decidable (_ ≤ _))

/-- The engine: the executions on it, and when the sleeping threads wake up. -/
structure Engine where
  now : Time
  epoch : ℕ
  jobs : List Job
  watchdogs : List Time

def Engine.new : Engine := ⟨0, 0, [], []⟩

/-- A guest with a deadline that has been reached traps. -/
def Job.interrupt (epoch : ℕ) (now : Time) (job : Job) : Job :=
  match job.phase with
  | .guest stage deadline =>
    if deadline ≤ epoch then { job with phase := .ended (.interrupted stage) now } else job
  | _ => job

/-- What comes after a call into the guest. -/
def Stage.next (stage : Stage) (deadline : ℕ) (now : Time) : Phase :=
  match stage with
  | .instantiate => .host .alloc deadline
  | .alloc => .host .execute deadline
  | .execute => .ended .other now

def Job.advance (epoch : ℕ) (now : Time) (job : Job) : Option Job :=
  match job.phase with
  -- store.set_epoch_deadline(1)
  | .compiling => some { job with phase := .armed (epoch + 1) }
  | .armed deadline => some { job with phase := .host .instantiate deadline }
  | .host next deadline =>
    some (Job.interrupt epoch now { job with phase := .guest next deadline })
  | .guest stage deadline => some { job with phase := stage.next deadline now }
  | .ended _ _ => none

def Job.spawned (now : Time) (job : Job) : List Time :=
  match job.phase with
  | .armed _ => [now + job.config.timeout * second]
  | _ => []

/-- `execute_sync` returns early: the module does not compile or the guest traps. -/
def Job.finish (now : Time) (job : Job) : Option Job :=
  match job.phase with
  | .ended _ _ => none
  | _ => some { job with phase := .ended .other now }

/-- Time passes, an execution starts, goes on or ends, or a sleeping thread wakes up. -/
inductive Tick where
  | pass (duration : Time)
  | start (config : SandboxConfig)
  | advance (i : ℕ)
  | finish (i : ℕ)
  | wake (j : ℕ)

def stepEngine (s : Engine) : Tick → Option Engine
  | .pass duration => some { s with now := s.now + duration }
  | .start config => some { s with jobs := s.jobs ++ [⟨config, s.now, .compiling⟩] }
  | .advance i =>
    s.jobs[i]?.bind fun job => (job.advance s.epoch s.now).map fun job' =>
      { s with jobs := s.jobs.set i job', watchdogs := s.watchdogs ++ job.spawned s.now }
  | .finish i =>
    s.jobs[i]?.bind fun job => (job.finish s.now).map fun job' =>
      { s with jobs := s.jobs.set i job' }
  | .wake j =>
    match s.watchdogs[j]? with
    | none => none
    | some time =>
      if time ≤ s.now then
        -- engine_clone.increment_epoch()
        some { s with
          epoch := s.epoch + 1
          jobs := s.jobs.map (Job.interrupt (s.epoch + 1) s.now)
          watchdogs := s.watchdogs.eraseIdx j }
      else none

/-! ## Who is interrupted -/

/-- An execution that ended with the timeout error had run for its own timeout. -/
def Job.OwnTimeout (job : Job) : Prop :=
  ∀ time, job.phase = .ended (.interrupted .execute) time → job.Expired time

/-- Guests are interrupted by their own timeout only. -/
def OwnTimeouts (s : Engine) : Prop := ∀ job ∈ s.jobs, job.OwnTimeout

def Job.Executing (job : Job) : Prop := ∃ deadline, job.phase = .guest .execute deadline

/-- When a thread wakes up, the guests that are executed have used up their timeout. -/
def OnTime (s : Engine) : Tick → Prop
  | .wake _ => ∀ job ∈ s.jobs, job.Executing → job.Expired s.now
  | .advance i => ∀ job, s.jobs[i]? = some job → ∀ deadline, job.phase = .host .execute deadline →
      deadline ≤ s.epoch → job.Expired s.now
  | _ => True

def Phase.deadline? : Phase → Option ℕ
  | .armed deadline | .host _ deadline | .guest _ deadline => some deadline
  | _ => none

/-- The deadline of an execution is at most the given epoch. -/
def Job.DueBy (epoch : ℕ) (job : Job) : Prop :=
  ∀ deadline, job.phase.deadline? = some deadline → deadline ≤ epoch

/-- No deadline is later than the next epoch. -/
def Deadlines (s : Engine) : Prop := ∀ job ∈ s.jobs, job.DueBy (s.epoch + 1)

variable {job : Job}

theorem Job.DueBy.interrupt (h : job.DueBy bound) (epoch : ℕ) (now : Time) :
    (job.interrupt epoch now).DueBy bound := by
  rw [Job.interrupt]
  split
  · split
    · rintro deadline ⟨⟩
    · exact h
  · exact h

theorem Job.DueBy.mono (h : job.DueBy bound) (hle : bound ≤ bound') : job.DueBy bound' :=
  fun deadline hdeadline => (h deadline hdeadline).trans hle

/-- **Whom an interrupt hits.** -/
theorem ownTimeout_interrupt (h : job.OwnTimeout) (epoch : ℕ) (now : Time) :
    (job.interrupt epoch now).OwnTimeout ↔
      ∀ deadline, job.phase = .guest .execute deadline → deadline ≤ epoch → job.Expired now := by
  obtain ⟨config, startedAt, phase⟩ := job
  cases phase with
  | guest stage deadline =>
    rw [Job.interrupt]
    dsimp only
    split
    · rename_i hle
      refine ⟨?_, ?_⟩
      · rintro hown d ⟨⟩ -
        exact hown now rfl
      · rintro hexp time ⟨⟩
        exact hexp deadline rfl hle
    · rename_i hlt
      refine iff_of_true h ?_
      rintro d ⟨⟩ hle
      exact absurd hle hlt
  | _ =>
    refine iff_of_true h ?_
    rintro d ⟨⟩

variable {job' : Job} {now : Time}

theorem Job.DueBy.advance (h : job.DueBy (epoch + 1))
    (hadvance : job.advance epoch now = some job') : job'.DueBy (epoch + 1) := by
  obtain ⟨config, startedAt, phase⟩ := job
  cases phase with
  | compiling =>
    cases hadvance
    rintro deadline ⟨⟩
    exact le_rfl
  | armed deadline =>
    cases hadvance
    exact h
  | host next deadline =>
    cases hadvance
    apply Job.DueBy.interrupt
    exact h
  | guest stage deadline =>
    cases hadvance
    cases stage with
    | instantiate => exact h
    | alloc => exact h
    | execute => rintro d ⟨⟩
  | ended ending time => cases hadvance

theorem ownTimeout_advance (hadvance : job.advance epoch now = some job') :
    job'.OwnTimeout ↔
      ∀ deadline, job.phase = .host .execute deadline → deadline ≤ epoch → job.Expired now := by
  obtain ⟨config, startedAt, phase⟩ := job
  cases phase with
  | host next deadline =>
    cases hadvance
    rw [ownTimeout_interrupt (by rintro time ⟨⟩)]
    refine ⟨?_, ?_⟩
    · rintro h _ ⟨⟩ hle
      exact h _ rfl hle
    · rintro h _ ⟨⟩ hle
      exact h _ rfl hle
  | guest stage deadline =>
    cases hadvance
    refine iff_of_true ?_ ?_
    · cases stage <;> rintro time ⟨⟩
    · rintro d ⟨⟩
  | ended ending time => cases hadvance
  | compiling | armed deadline =>
    cases hadvance
    refine iff_of_true ?_ ?_
    · rintro time ⟨⟩
    · rintro d ⟨⟩

theorem finish_eq_some (h : job.finish now = some job') :
    job' = { job with phase := .ended .other now } := by
  rw [Job.finish] at h
  split at h
  · cases h
  · exact (Option.some.inj h).symm

/-- **What a step does to the executions.** -/
theorem step_jobs (hstep : stepEngine s e = some s') :
    (∃ duration, e = .pass duration ∧ s'.jobs = s.jobs ∧ s'.epoch = s.epoch) ∨
    (∃ config, e = .start config ∧ s'.jobs = s.jobs ++ [⟨config, s.now, .compiling⟩] ∧
      s'.epoch = s.epoch) ∨
    (∃ i job job', e = .advance i ∧ s.jobs[i]? = some job ∧
      job.advance s.epoch s.now = some job' ∧ s'.jobs = s.jobs.set i job' ∧ s'.epoch = s.epoch) ∨
    (∃ i job, e = .finish i ∧ s.jobs[i]? = some job ∧
      s'.jobs = s.jobs.set i { job with phase := .ended .other s.now } ∧ s'.epoch = s.epoch) ∨
    (∃ j, e = .wake j ∧ s'.jobs = s.jobs.map (Job.interrupt (s.epoch + 1) s.now) ∧
      s'.epoch = s.epoch + 1) := by
  cases e with
  | pass duration =>
    cases hstep
    exact .inl ⟨duration, rfl, rfl, rfl⟩
  | start config =>
    cases hstep
    exact .inr (.inl ⟨config, rfl, rfl, rfl⟩)
  | advance i =>
    obtain ⟨job, hjob, hstep⟩ := Option.bind_eq_some_iff.mp hstep
    obtain ⟨job', hadvance, rfl⟩ := Option.map_eq_some_iff.mp hstep
    exact .inr (.inr (.inl ⟨i, job, job', rfl, hjob, hadvance, rfl, rfl⟩))
  | finish i =>
    obtain ⟨job, hjob, hstep⟩ := Option.bind_eq_some_iff.mp hstep
    obtain ⟨job', hfinish, rfl⟩ := Option.map_eq_some_iff.mp hstep
    obtain rfl := finish_eq_some hfinish
    exact .inr (.inr (.inr (.inl ⟨i, job, rfl, hjob, rfl, rfl⟩)))
  | wake j =>
    rw [stepEngine] at hstep
    split at hstep
    · cases hstep
    · split at hstep
      · cases hstep
        exact .inr (.inr (.inr (.inr ⟨j, rfl, rfl, rfl⟩)))
      · cases hstep

theorem deadlines_step (s : Engine) (e : Tick) (s' : Engine) (h : Deadlines s)
    (hstep : stepEngine s e = some s') : Deadlines s' := by
  obtain ⟨_, -, hjobs, hepoch⟩ | ⟨config, -, hjobs, hepoch⟩ |
    ⟨i, job, job', -, hjob, hadvance, hjobs, hepoch⟩ | ⟨i, job, -, hjob, hjobs, hepoch⟩ |
    ⟨j, -, hjobs, hepoch⟩ := step_jobs hstep <;> rw [Deadlines, hjobs, hepoch]
  · exact h
  · intro job hjob
    rcases mem_append.mp hjob with hjob | hjob
    · exact h job hjob
    · rw [mem_singleton.mp hjob]
      rintro deadline ⟨⟩
  · exact (forall_mem_set hjob _ h).mpr ((h job (mem_of_getElem? hjob)).advance hadvance)
  · apply (forall_mem_set hjob _ h).mpr
    rintro deadline ⟨⟩
  · intro job hjob
    obtain ⟨old, hold, rfl⟩ := mem_map.mp hjob
    exact ((h old hold).mono (Nat.le_succ _)).interrupt _ _

/-- **One step.** -/
theorem ownTimeout_step (s : Engine) (e : Tick) (s' : Engine) (hdue : Deadlines s)
    (h : OwnTimeouts s) (hstep : stepEngine s e = some s') : OwnTimeouts s' ↔ OnTime s e := by
  obtain ⟨_, rfl, hjobs, -⟩ | ⟨config, rfl, hjobs, -⟩ |
    ⟨i, job, job', rfl, hjob, hadvance, hjobs, -⟩ | ⟨i, job, rfl, hjob, hjobs, -⟩ |
    ⟨j, rfl, hjobs, -⟩ := step_jobs hstep <;> rw [OwnTimeouts, hjobs]
  · exact iff_of_true h trivial
  · refine iff_of_true ?_ trivial
    intro job hjob
    rcases mem_append.mp hjob with hjob | hjob
    · exact h job hjob
    · rw [mem_singleton.mp hjob]
      rintro time ⟨⟩
  · rw [forall_mem_set hjob _ h, ownTimeout_advance hadvance, OnTime, hjob]
    simp only [Option.some.injEq, forall_eq']
  · refine iff_of_true ((forall_mem_set hjob _ h).mpr ?_) trivial
    rintro time ⟨⟩
  · -- every guest has reached its deadline when the epoch is incremented
    rw [forall_mem_map, OnTime]
    refine forall₂_congr fun job hjob => ?_
    rw [ownTimeout_interrupt (h job hjob)]
    refine ⟨?_, ?_⟩
    · rintro hexp ⟨deadline, hguest⟩
      refine hexp deadline hguest (hdue job hjob deadline ?_)
      rw [hguest]
      rfl
    · rintro hexp deadline hguest -
      exact hexp ⟨deadline, hguest⟩

/-- **When guests are interrupted by their own timeout only.** -/
theorem own_timeout_iff (es : List Tick) (s : Engine)
    (hrun : run stepEngine Engine.new es = some s) :
    Throughout stepEngine OwnTimeouts Engine.new es ↔ Guarded stepEngine OnTime Engine.new es := by
  apply throughout_iff_guarded_of_inv deadlines_step ownTimeout_step es
  · rintro job ⟨⟩
  · rintro job ⟨⟩
  · exact hrun

def goesOn (i n : ℕ) : List Tick := List.replicate n (.advance i)

/-- A guest that is interrupted by its own timeout, after 30 seconds. -/
def alone : List Tick := .start {} :: goesOn 0 7 ++ [.pass (30 * second), .wake 0]

theorem alone_on_time :
    ∃ s, run stepEngine Engine.new alone = some s ∧
      s.jobs.map Job.phase = [.ended (.interrupted .execute) (30 * second)] ∧
      Throughout stepEngine OwnTimeouts Engine.new alone := by
  refine ⟨_, rfl, rfl, (own_timeout_iff alone _ rfl).mpr ?_⟩
  refine .cons trivial rfl ?_
  iterate 6 refine .cons (by rintro _ ⟨⟩ _ ⟨⟩) rfl ?_
  refine .cons ?_ rfl (.cons trivial rfl ⟨?_, fun _ _ => trivial⟩)
  · -- the epoch has not been incremented yet when the guest is entered
    rintro _ ⟨⟩ _ ⟨⟩ hle
    exact absurd hle (by decide)
  · intro job hjob _
    rw [mem_singleton.mp hjob]
    exact le_rfl

/-- A second execution is running when the thread of the first one wakes up. -/
def oneAfterAnother : List Tick :=
  .start {} :: goesOn 0 8 ++ .pass (29 * second) :: .start {} :: goesOn 1 7 ++
    [.pass second, .wake 0]

theorem interrupted_by_another :
    ∃ s, run stepEngine Engine.new oneAfterAnother = some s ∧
      s.jobs.map (fun job => (job.startedAt, job.phase)) =
        [(0, .ended .other 0), (29 * second, .ended (.interrupted .execute) (30 * second))] ∧
      ¬ OwnTimeouts s := by
  refine ⟨_, rfl, rfl, fun h => ?_⟩
  have hown := h _ (mem_of_getElem? (i := 1) rfl) (30 * second) rfl
  exact absurd hown (by decide)

end AlloyAgent.Sandbox
