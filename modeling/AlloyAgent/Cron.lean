import AlloyAgent.HashTable
import AlloyAgent.RustStr
import AlloyAgent.Transition

/-!
# The cron scheduler and its tick loop

The scheduler keeps jobs in a map. Every tick the kernel takes a list of the jobs that are due and
executes them one after another, recording for each a success or a failure; meanwhile other tasks
may add, remove, enable and disable jobs.

`alphanumeric` is `char::is_alphanumeric`, any predicate.

* the scheduler and its runs, with the results of the jobs as inputs;
* `once_only`: a job for one time succeeds once at most;
* `cron_counts`: when consecutive errors are counted as they should.
-/

namespace AlloyAgent.Cron

open Option

open Transition

abbrev CronJobId := String

abbrev AgentId := String

abbrev Time := ℕ

def second : ℕ := 1000000000

/-- When a scheduled job fires. -/
inductive CronSchedule where
  | atTime (time : Time)
  | every (everySecs : ℕ)
  | cron (expr : String) (tz : Option String)
  deriving DecidableEq

inductive CronAction where
  | systemEvent (text : String)
  | agentTurn (message : String) (modelOverride : Option String) (timeoutSecs : Option ℕ)
  deriving DecidableEq

inductive CronDelivery where
  | nowhere
  | channel (channel recipient : String)
  | lastChannel
  | webhook (url : String)
  deriving DecidableEq

structure CronJob where
  id : CronJobId
  agentId : AgentId
  name : String
  enabled : Bool
  schedule : CronSchedule
  action : CronAction
  delivery : CronDelivery
  lastRun : Option Time
  nextRun : Option Time
  deriving DecidableEq

def maxJobsPerAgent : ℕ := 50

def maxNameLen : ℕ := 128

def minEverySecs : ℕ := 60

def maxEverySecs : ℕ := 86400

/-- Maximum future horizon for one-shot `At` jobs (seconds) = 1 year. -/
def maxAtHorizonSecs : ℕ := 365 * 24 * 3600

def maxEventTextLen : ℕ := 4096

def maxTurnMessageLen : ℕ := 16384

def minTimeoutSecs : ℕ := 10

def maxTimeoutSecs : ℕ := 600

def maxWebhookUrlLen : ℕ := 2048

/-- The fields of a cron expression, from the number `i` on, have only the characters of one. -/
def validateFields : ℕ → List (List Char) → Except String Unit
  | _, [] => .ok ()
  | i, field :: fields =>
    if field.isEmpty then .error s!"cron field {i} is empty"
    else if field.all fun c => c.isDigit || c ∈ ['*', '/', '-', ',', '?'] then
      validateFields (i + 1) fields
    else
      let text := String.ofList field
      .error s!"cron field {i} contains invalid characters: \"{text}\""

/-- Exactly five fields, separated by white space. -/
def validateCronExpr (expr : String) : Except String Unit :=
  let trimmed := RustStr.trim expr.toList
  let fields := RustStr.splitWhitespace trimmed
  let n := fields.length
  let text := String.ofList trimmed
  if trimmed.isEmpty then .error "cron expression must not be empty"
  else if n ≠ 5 then
    .error s!"cron expression must have exactly 5 fields (got {n}): \"{text}\""
  else validateFields 0 fields

def validateSchedule (now : Time) : CronSchedule → Except String Unit
  | .every everySecs =>
    if everySecs < minEverySecs then
      .error s!"every_secs too small ({everySecs}, min {minEverySecs})"
    else if everySecs > maxEverySecs then
      .error s!"every_secs too large ({everySecs}, max {maxEverySecs})"
    else .ok ()
  | .atTime time =>
    if time ≤ now then .error "scheduled time must be in the future"
    else if (time - now) / second > maxAtHorizonSecs then
      .error s!"scheduled time too far in the future (max {maxAtHorizonSecs}s / ~1 year)"
    else .ok ()
  | .cron expr _ => validateCronExpr expr

def validateAction : CronAction → Except String Unit
  | .systemEvent text =>
    let n := text.utf8ByteSize
    if text.isEmpty then .error "system event text must not be empty"
    else if n > maxEventTextLen then
      .error s!"system event text too long ({n} chars, max {maxEventTextLen})"
    else .ok ()
  | .agentTurn message _ timeoutSecs =>
    let n := message.utf8ByteSize
    if message.isEmpty then .error "agent turn message must not be empty"
    else if n > maxTurnMessageLen then
      .error s!"agent turn message too long ({n} chars, max {maxTurnMessageLen})"
    else
      match timeoutSecs with
      | none => .ok ()
      | some t =>
        if t < minTimeoutSecs then .error s!"timeout_secs too small ({t}, min {minTimeoutSecs})"
        else if t > maxTimeoutSecs then
          .error s!"timeout_secs too large ({t}, max {maxTimeoutSecs})"
        else .ok ()

def validateDelivery : CronDelivery → Except String Unit
  | .channel channel recipient =>
    if channel.isEmpty then .error "delivery channel must not be empty"
    else if recipient.isEmpty then .error "delivery recipient must not be empty"
    else .ok ()
  | .webhook url =>
    let n := url.utf8ByteSize
    if !url.startsWith "http://" && !url.startsWith "https://" then
      .error "webhook URL must start with http:// or https://"
    else if n > maxWebhookUrlLen then
      .error s!"webhook URL too long ({n} chars, max {maxWebhookUrlLen})"
    else .ok ()
  | .nowhere | .lastChannel => .ok ()

def CronJob.validate (alphanumeric : Char → Bool) (now : Time) (job : CronJob)
    (existingCount : ℕ) : Except String Unit :=
  let n := job.name.utf8ByteSize
  if existingCount ≥ maxJobsPerAgent then
    .error s!"agent already has {existingCount} jobs (max {maxJobsPerAgent})"
  else if job.name.isEmpty then .error "name must not be empty"
  else if n > maxNameLen then .error s!"name too long ({n} chars, max {maxNameLen})"
  else if !job.name.toList.all fun c => alphanumeric c || c ∈ [' ', '-', '_'] then
    .error "name may only contain alphanumeric characters, spaces, hyphens, and underscores"
  else do
    validateSchedule now job.schedule
    validateAction job.action
    validateDelivery job.delivery

/-- Maximum consecutive errors before a job is auto-disabled. -/
def maxConsecutiveErrors : ℕ := 5

structure JobMeta where
  job : CronJob
  oneShot : Bool
  lastStatus : Option (List Char)
  consecutiveErrors : ℕ
  deriving DecidableEq

abbrev Jobs := Table CronJobId JobMeta

inductive CronError where
  | internal (message : String)
  | invalidInput (message : String)
  deriving DecidableEq

/-- Compute the next fire time for a schedule. -/
def computeNextRun (now : Time) : CronSchedule → Time
  | .atTime time => time
  | .every everySecs => now + everySecs * second
  | .cron _ _ => now + 60 * second

def addJob (alphanumeric : Char → Bool) (now : Time) (maxTotalJobs : ℕ) (jobs : Jobs)
    (job : CronJob) (oneShot : Bool) : Except CronError Jobs :=
  if jobs.size ≥ maxTotalJobs then
    .error (.internal s!"Global cron job limit reached ({maxTotalJobs})")
  else
    let agentCount := (jobs.pairs.filter fun p => p.2.job.agentId = job.agentId).length
    match job.validate alphanumeric now agentCount with
    | .error e => .error (.invalidInput e)
    | .ok _ =>
      let job := { job with nextRun := some (computeNextRun now job.schedule) }
      .ok (jobs.insert job.id ⟨job, oneShot, none, 0⟩)

def removeJob (jobs : Jobs) (id : CronJobId) : Except CronError (CronJob × Jobs) :=
  match jobs.lookup id with
  | some entry => .ok (entry.job, jobs.erase id)
  | none => .error (.internal s!"Cron job {id} not found")

/-- Enable or disable a job. Re-enabling resets errors and recomputes the next run. -/
def setEnabled (now : Time) (jobs : Jobs) (id : CronJobId) (enabled : Bool) :
    Except CronError Jobs :=
  match jobs.lookup id with
  | none => .error (.internal s!"Cron job {id} not found")
  | some entry =>
    if enabled then
      .ok (jobs.insert id
        { entry with
          job := { entry.job with
            enabled := true
            nextRun := some (computeNextRun now entry.job.schedule) }
          consecutiveErrors := 0 })
    else .ok (jobs.insert id { entry with job := { entry.job with enabled := false } })

def JobMeta.isDue (now : Time) (entry : JobMeta) : Bool :=
  entry.job.enabled && (entry.job.nextRun.map fun t => decide (t ≤ now)).getD false

/-- Jobs that are enabled and whose time has come. -/
def dueJobs (order : IterOrder (CronJobId × JobMeta)) (now : Time) (jobs : Jobs) : List CronJob :=
  ((order.arrange jobs.pairs).filter fun p => p.2.isDue now).map fun p => p.2.job

def recordSuccess (now : Time) (jobs : Jobs) (id : CronJobId) : Jobs :=
  match jobs.lookup id with
  | none => jobs
  | some entry =>
    if entry.oneShot then jobs.erase id
    else
      jobs.insert id
        { entry with
          job := { entry.job with
            lastRun := some now
            nextRun := some (computeNextRun now entry.job.schedule) }
          lastStatus := some "ok".toList
          consecutiveErrors := 0 }

/-- Record a failure; it does not return if the error text is cut inside a character. -/
def recordFailure (now : Time) (jobs : Jobs) (id : CronJobId) (errorMsg : List Char) :
    Jobs × Bool :=
  match jobs.lookup id with
  | none => (jobs, true)
  | some entry =>
    let started := { entry with job := { entry.job with lastRun := some now } }
    match RustStr.takeBytes? (min (RustStr.utf8Len errorMsg) 256) errorMsg with
    | none => (jobs.insert id started, false)
    | some cut =>
      let failed := { started with
        lastStatus := some ("error: ".toList ++ cut)
        consecutiveErrors := (entry.consecutiveErrors + 1) % 2 ^ 32 }
      if failed.consecutiveErrors ≥ maxConsecutiveErrors then
        (jobs.insert id { failed with job := { failed.job with enabled := false } }, true)
      else
        (jobs.insert id
          { failed with
            job := { failed.job with
              nextRun := some (computeNextRun now entry.job.schedule) } }, true)

inductive TurnOutcome where
  | completed
  | failed (error : List Char)
  | timedOut
  deriving DecidableEq

def executed (job : CronJob) (outcome : TurnOutcome) : Option (List Char) :=
  match job.action with
  | .systemEvent _ => none
  | .agentTurn _ _ timeoutSecs =>
    match outcome with
    | .completed => none
    | .failed error => some error
    | .timedOut =>
      let timeout := timeoutSecs.getD 120
      some s!"timed out after {timeout}s".toList

/-- The scheduler, what is left of the list of the tick, and the jobs that have succeeded. -/
structure CronLoop where
  jobs : Jobs
  maxTotalJobs : ℕ
  due : List CronJob
  running : Bool
  successes : List CronJob

def CronLoop.start (jobs : Jobs) (maxTotalJobs : ℕ) : CronLoop := ⟨jobs, maxTotalJobs, [], true, []⟩

inductive Event where
  | tick (order : IterOrder (CronJobId × JobMeta)) (now : Time)
  | finish (now : Time) (outcome : TurnOutcome)
  | add (now : Time) (job : CronJob) (oneShot : Bool)
  | remove (id : CronJobId)
  | setEnabled (now : Time) (id : CronJobId) (enabled : Bool)

def stepCron (alphanumeric : Char → Bool) (s : CronLoop) : Event → Option CronLoop
  | .tick order now =>
    if s.running ∧ s.due = [] then some { s with due := dueJobs order now s.jobs } else none
  | .finish now outcome =>
    match s.due with
    | [] => none
    | job :: rest =>
      match executed job outcome with
      | none =>
        some { s with
          jobs := recordSuccess now s.jobs job.id
          due := rest
          successes := s.successes ++ [job] }
      | some error =>
        let recorded := recordFailure now s.jobs job.id error
        -- a slice inside a character ends the loop
        some { s with
          jobs := recorded.1
          due := if recorded.2 then rest else []
          running := recorded.2 }
  | .add now job oneShot =>
    match addJob alphanumeric now s.maxTotalJobs s.jobs job oneShot with
    | .ok jobs => some { s with jobs := jobs }
    | .error _ => some s
  | .remove id =>
    match removeJob s.jobs id with
    | .ok removed => some { s with jobs := removed.2 }
    | .error _ => some s
  | .setEnabled now id enabled =>
    match setEnabled now s.jobs id enabled with
    | .ok jobs => some { s with jobs := jobs }
    | .error _ => some s

/-! ## Jobs with a time -/

def CronSchedule.isAt : CronSchedule → Bool
  | .atTime _ => true
  | _ => false

section

variable {now : Time} {job : CronJob} {id : CronJobId} {entry : JobMeta} {jobs' : Jobs}
  {s : CronLoop}

theorem mem_dueJobs :
    job ∈ dueJobs order now jobs ↔
      ∃ id entry, jobs.lookup id = some entry ∧ entry.isDue now = true ∧ entry.job = job := by
  simp only [dueJobs, List.mem_map, List.mem_filter, IterOrder.mem_arrange, Prod.exists,
    Table.mem_pairs, and_assoc]

/-- Each job with a time has succeeded at most once, and is not due after its success. -/
structure OnceOnly (s : CronLoop) : Prop where
  once : ∀ id, (s.successes.filter fun job => job.schedule.isAt && job.id = id).length ≤ 1
  notAgain : ∀ job ∈ s.successes, job.schedule.isAt = true → ∀ order now,
    ∀ due ∈ dueJobs order now s.jobs, due.id ≠ job.id

/-- Jobs with a time are added as one-shot, and under an id that is not in use. -/
def AddedOneShot (s : CronLoop) : Event → Prop
  | .add _ job oneShot => (job.schedule.isAt = true → oneShot = true) ∧
      (∀ due ∈ s.due, due.id ≠ job.id) ∧ ∀ done ∈ s.successes, done.id ≠ job.id
  | _ => True

/-- Jobs are stored under their ids, and those with a time are one-shot. -/
structure OneShot (jobs : Jobs) : Prop where
  keyed : ∀ id entry, jobs.lookup id = some entry → entry.job.id = id
  oneShot : ∀ id entry, jobs.lookup id = some entry → entry.job.schedule.isAt = true →
    entry.oneShot = true

structure Inv (s : CronLoop) : Prop where
  jobs : OneShot s.jobs
  /-- the list of a tick names no job twice -/
  nodup : (s.due.map CronJob.id).Nodup
  /-- a job that is still stored has the schedule that it had at the tick -/
  same : ∀ job ∈ s.due, ∀ entry, s.jobs.lookup job.id = some entry →
    entry.job.schedule = job.schedule
  /-- no job with a time has succeeded twice -/
  once : ((s.successes.filter fun job => job.schedule.isAt).map CronJob.id).Nodup
  /-- a job with a time that has succeeded is gone, -/
  gone : ∀ job ∈ s.successes, job.schedule.isAt = true → s.jobs.lookup job.id = none
  /-- and does not wait to be executed -/
  past : ∀ job ∈ s.successes, job.schedule.isAt = true → ∀ due ∈ s.due, due.id ≠ job.id

/-- Entries are dropped or changed, but not in id, schedule and whether they are one-shot. -/
def Evolves (jobs jobs' : Jobs) : Prop :=
  ∀ id entry', jobs'.lookup id = some entry' → ∃ entry, jobs.lookup id = some entry ∧
    entry'.job.id = entry.job.id ∧ entry'.job.schedule = entry.job.schedule ∧
    entry'.oneShot = entry.oneShot

theorem Evolves.refl (jobs : Jobs) : Evolves jobs jobs := fun _ entry h => ⟨entry, h, rfl, rfl, rfl⟩

theorem evolves_erase (jobs : Jobs) (id : CronJobId) : Evolves jobs (jobs.erase id) := by
  intro id' entry h
  rw [Table.lookup_erase_eq] at h
  split_ifs at h
  exact ⟨entry, h, rfl, rfl, rfl⟩

theorem evolves_insert (hentry : jobs.lookup id = some entry) (hid : entry'.job.id = entry.job.id)
    (hschedule : entry'.job.schedule = entry.job.schedule)
    (hshot : entry'.oneShot = entry.oneShot) : Evolves jobs (jobs.insert id entry') := by
  intro id' entry'' h
  rw [Table.lookup_insert_eq] at h
  split_ifs at h with hid'
  · cases h
    exact ⟨entry, hid' ▸ hentry, hid, hschedule, hshot⟩
  · exact ⟨entry'', h, rfl, rfl, rfl⟩

theorem Evolves.none (h : Evolves jobs jobs') (hid : jobs.lookup id = none) :
    jobs'.lookup id = none := by
  cases hid' : jobs'.lookup id with
  | none => rfl
  | some entry' =>
    obtain ⟨entry, hentry, -⟩ := h id entry' hid'
    cases hid.symm.trans hentry

theorem Evolves.jobs {jobs : Jobs} (h : Evolves jobs jobs') (hjobs : OneShot jobs) :
    OneShot jobs' := by
  refine ⟨fun id entry' hentry' => ?_, fun id entry' hentry' hat => ?_⟩
  · obtain ⟨entry, hentry, hid, -⟩ := h id entry' hentry'
    rw [hid, hjobs.keyed id entry hentry]
  · obtain ⟨entry, hentry, -, hschedule, hshot⟩ := h id entry' hentry'
    rw [hshot]
    exact hjobs.oneShot id entry hentry (hschedule ▸ hat)

theorem evolves_recordSuccess (now : Time) (jobs : Jobs) (id : CronJobId) :
    Evolves jobs (recordSuccess now jobs id) := by
  rw [recordSuccess]
  split
  · exact .refl jobs
  · rename_i entry hentry
    split
    · exact evolves_erase jobs id
    · exact evolves_insert hentry rfl rfl rfl

theorem evolves_recordFailure (now : Time) (jobs : Jobs) (id : CronJobId) (errorMsg : List Char) :
    Evolves jobs (recordFailure now jobs id errorMsg).1 := by
  rw [recordFailure]
  split
  · exact .refl jobs
  · rename_i entry hentry
    dsimp only
    split
    · exact evolves_insert hentry rfl rfl rfl
    · split
      · exact evolves_insert hentry rfl rfl rfl
      · exact evolves_insert hentry rfl rfl rfl

theorem evolves_removeJob {jobs : Jobs} {removed : CronJob × Jobs}
    (h : removeJob jobs id = .ok removed) : Evolves jobs removed.2 := by
  rw [removeJob] at h
  split at h
  · cases h
    exact evolves_erase jobs id
  · cases h

theorem evolves_setEnabled {jobs : Jobs} {enabled : Bool}
    (h : setEnabled now jobs id enabled = .ok jobs') : Evolves jobs jobs' := by
  rw [setEnabled] at h
  split at h
  · cases h
  · rename_i entry hentry
    split at h
    all_goals
      cases h
      exact evolves_insert hentry rfl rfl rfl

theorem addJob_eq_ok {alphanumeric : Char → Bool} {maxTotalJobs : ℕ} {jobs : Jobs} {oneShot : Bool}
    (h : addJob alphanumeric now maxTotalJobs jobs job oneShot = .ok jobs') :
    jobs' = jobs.insert job.id
      ⟨{ job with nextRun := some (computeNextRun now job.schedule) }, oneShot, none, 0⟩ := by
  rw [addJob] at h
  split at h
  · cases h
  · dsimp only at h
    split at h
    · cases h
    · cases h
      rfl

theorem lookup_recordSuccess (h : ∀ entry, jobs.lookup id = some entry → entry.oneShot = true) :
    (recordSuccess now jobs id).lookup id = none := by
  rw [recordSuccess]
  split
  · assumption
  · rename_i entry hentry
    rw [if_pos (h entry hentry), AList.lookup_erase]

theorem nodup_dueJobs (h : OneShot jobs) (order : IterOrder (CronJobId × JobMeta)) (now : Time) :
    ((dueJobs order now jobs).map CronJob.id).Nodup := by
  have hkeys : ((order.arrange jobs.pairs).filter fun p => p.2.isDue now).map
      (fun p => p.2.job.id) =
      ((order.arrange jobs.pairs).filter fun p => p.2.isDue now).map Prod.fst := by
    refine List.map_congr_left fun p hp => ?_
    obtain ⟨id, entry⟩ := p
    have hmem : (id, entry) ∈ jobs.pairs :=
      (IterOrder.mem_arrange order).mp (List.mem_of_mem_filter hp)
    exact h.keyed id entry (Table.mem_pairs.mp hmem)
  have hnodup : ((order.arrange jobs.pairs).map Prod.fst).Nodup :=
    ((order.perm jobs.pairs).map _).nodup_iff.mpr jobs.nodup_keys_pairs
  rw [dueJobs, List.map_map]
  exact hkeys ▸ hnodup.sublist (List.filter_sublist.map _)

theorem inv_start (h : OneShot jobs) (maxTotalJobs : ℕ) :
    Inv (CronLoop.start jobs maxTotalJobs) where
  jobs := h
  nodup := List.nodup_nil
  same := by rintro job ⟨⟩
  once := List.nodup_nil
  gone := by rintro job ⟨⟩
  past := by rintro job ⟨⟩

theorem Inv.evolve (h : Inv s) {jobs : Jobs} (hjobs : Evolves s.jobs jobs) {due : List CronJob}
    (hdue : List.Sublist due s.due) (running : Bool) :
    Inv { s with jobs := jobs, due := due, running := running } where
  jobs := hjobs.jobs h.jobs
  nodup := h.nodup.sublist (hdue.map _)
  same := by
    intro job hjob entry' hentry'
    obtain ⟨entry, hentry, -, hschedule, -⟩ := hjobs _ _ hentry'
    rw [hschedule]
    exact h.same job (hdue.subset hjob) entry hentry
  once := h.once
  gone := fun job hjob hat => hjobs.none (h.gone job hjob hat)
  past := fun job hjob hat due hdue' => h.past job hjob hat due (hdue.subset hdue')

theorem Inv.tick (h : Inv s) (order : IterOrder (CronJobId × JobMeta)) (now : Time) :
    Inv { s with due := dueJobs order now s.jobs } where
  jobs := h.jobs
  nodup := nodup_dueJobs h.jobs order now
  same := by
    intro job hjob entry hentry
    obtain ⟨id, entry', hentry', -, rfl⟩ := mem_dueJobs.mp hjob
    rw [h.jobs.keyed id entry' hentry', hentry'] at hentry
    rw [some.inj hentry]
  once := h.once
  gone := h.gone
  past := by
    intro job hjob hat due hdue heq
    obtain ⟨id, entry, hentry, -, rfl⟩ := mem_dueJobs.mp hdue
    have hgone := h.gone job hjob hat
    rw [← heq, h.jobs.keyed id entry hentry, hentry] at hgone
    cases hgone

theorem Inv.success (h : Inv s) {rest : List CronJob} (hdue : s.due = job :: rest) (now : Time) :
    Inv { s with
      jobs := recordSuccess now s.jobs job.id
      due := rest
      successes := s.successes ++ [job] } := by
  have hjob : job ∈ s.due := hdue ▸ List.mem_cons_self
  have hnodup := h.nodup
  rw [hdue, List.map_cons, List.nodup_cons] at hnodup
  have hgone : job.schedule.isAt = true →
      (recordSuccess now s.jobs job.id).lookup job.id = none := by
    intro hat
    refine lookup_recordSuccess fun entry hentry => h.jobs.oneShot job.id entry hentry ?_
    rw [h.same job hjob entry hentry]
    exact hat
  have hbase : Inv { s with jobs := recordSuccess now s.jobs job.id, due := rest } :=
    h.evolve (evolves_recordSuccess now s.jobs job.id) (hdue ▸ List.sublist_cons_self job rest)
      s.running
  refine { hbase with once := ?_, gone := ?_, past := ?_ }
  · rw [List.filter_append, List.map_append]
    refine List.nodup_append.mpr ⟨h.once, ?_, ?_⟩
    · exact (List.nodup_singleton job.id).sublist (List.filter_sublist.map CronJob.id)
    · rintro id hid _ hlast rfl
      obtain ⟨done, hdone, rfl⟩ := List.mem_map.mp hid
      obtain ⟨last, hlast, heq⟩ := List.mem_map.mp hlast
      obtain rfl := List.mem_singleton.mp (List.mem_of_mem_filter hlast)
      rw [List.mem_filter] at hdone
      exact h.past done hdone.1 hdone.2 last hjob heq
  · intro done hdone hat
    rcases List.mem_append.mp hdone with hdone | hdone
    · exact hbase.gone done hdone hat
    · obtain rfl := List.mem_singleton.mp hdone
      exact hgone hat
  · intro done hdone hat due hmem
    rcases List.mem_append.mp hdone with hdone | hdone
    · exact hbase.past done hdone hat due hmem
    · obtain rfl := List.mem_singleton.mp hdone
      exact fun heq => hnodup.1 (List.mem_map.mpr ⟨due, hmem, heq⟩)

theorem Inv.add (h : Inv s) {oneShot : Bool} (hok : AddedOneShot s (.add now job oneShot))
    (hid : entry.job.id = job.id) (hschedule : entry.job.schedule = job.schedule)
    (honce : entry.oneShot = oneShot) : Inv { s with jobs := s.jobs.insert job.id entry } := by
  obtain ⟨hshot, hdue, hdone⟩ := hok
  refine { h with jobs := OneShot.mk ?_ ?_, same := ?_, gone := ?_ }
  · exact Table.forall_lookup_insert hid h.jobs.keyed
  · refine Table.forall_lookup_insert (fun hat => ?_) h.jobs.oneShot
    rw [honce]
    exact hshot (hschedule ▸ hat)
  · intro due hmem entry hentry
    rw [AList.lookup_insert_ne (hdue due hmem)] at hentry
    exact h.same due hmem entry hentry
  · intro done hmem hat
    rw [AList.lookup_insert_ne (hdone done hmem)]
    exact h.gone done hmem hat

theorem Inv.step (alphanumeric : Char → Bool) (s : CronLoop) (e : Event) (s' : CronLoop)
    (h : Inv s) (hok : AddedOneShot s e) (hstep : stepCron alphanumeric s e = some s') :
    Inv s' := by
  cases e with
  | tick order now =>
    simp only [stepCron] at hstep
    split at hstep
    · cases hstep
      exact h.tick order now
    · cases hstep
  | finish now outcome =>
    simp only [stepCron] at hstep
    split at hstep
    · cases hstep
    · rename_i job rest hdue
      have hrest : List.Sublist rest s.due := hdue ▸ List.sublist_cons_self job rest
      split at hstep
      · cases hstep
        exact h.success hdue now
      · cases hstep
        refine h.evolve (evolves_recordFailure now s.jobs job.id _) ?_ _
        split
        · exact hrest
        · exact List.nil_sublist _
  | add now job oneShot =>
    simp only [stepCron] at hstep
    split at hstep
    · rename_i jobs hadd
      cases hstep
      rw [addJob_eq_ok hadd]
      exact h.add hok rfl rfl rfl
    · cases hstep
      exact h
  | remove id =>
    simp only [stepCron] at hstep
    split at hstep
    · rename_i removed hremoved
      cases hstep
      exact h.evolve (evolves_removeJob hremoved) (.refl _) s.running
    · cases hstep
      exact h
  | setEnabled now id enabled =>
    simp only [stepCron] at hstep
    split at hstep
    · rename_i jobs henabled
      cases hstep
      exact h.evolve (evolves_setEnabled henabled) (.refl _) s.running
    · cases hstep
      exact h

theorem Inv.onceOnly (h : Inv s) : OnceOnly s where
  once := by
    intro id
    have hcount : (s.successes.filter fun job => job.schedule.isAt && job.id = id).length =
        ((s.successes.filter fun job => job.schedule.isAt).map CronJob.id).count id := by
      rw [List.count, List.countP_map, List.countP_filter, List.countP_eq_length_filter]
      simp [beq_eq_decide, Bool.and_comm]
    rw [hcount]
    exact List.nodup_iff_count_le_one.mp h.once id
  notAgain := fun job hjob hat order now => (h.tick order now).past job hjob hat

/-- **At most one success**, if jobs with a time are added as one-shot, under new ids. -/
theorem once_only (alphanumeric : Char → Bool) {jobs : Jobs} (hjobs : OneShot jobs)
    (maxTotalJobs : ℕ) (es : List Event) (s : CronLoop)
    (hadded : Guarded (stepCron alphanumeric) AddedOneShot (.start jobs maxTotalJobs) es)
    (hrun : run (stepCron alphanumeric) (.start jobs maxTotalJobs) es = some s) : OnceOnly s :=
  (run_guarded (Inv.step alphanumeric) es (inv_start hjobs maxTotalJobs) hadded hrun).onceOnly

def reminder : CronJob where
  id := "job-1"
  agentId := "agent-1"
  name := "reminder"
  enabled := true
  schedule := .atTime second
  action := .systemEvent "stand up"
  delivery := .nowhere
  lastRun := none
  nextRun := none

def twoTicks (oneShot : Bool) : List Event :=
  [.add 0 reminder oneShot, .tick (.stored _) (15 * second), .finish (15 * second) .completed,
    .tick (.stored _) (30 * second)]

def letters (c : Char) : Bool := c.isAlphanum

theorem oneShot_empty : OneShot ∅ := ⟨by rintro id entry ⟨⟩, by rintro id entry ⟨⟩⟩

theorem oneShot_reminder :
    ∃ s, run (stepCron letters) (.start ∅ 500) (twoTicks true) = some s ∧
      s.successes.map CronJob.id = ["job-1"] ∧ s.due = [] ∧ OnceOnly s := by
  refine ⟨_, rfl, rfl, rfl, once_only letters oneShot_empty 500 (twoTicks true) _ ?_ rfl⟩
  have hnew : AddedOneShot (.start ∅ 500) (.add 0 reminder true) :=
    ⟨fun _ => rfl, by rintro due ⟨⟩, by rintro done ⟨⟩⟩
  exact .cons hnew rfl (.cons trivial rfl (.cons trivial rfl (.cons trivial rfl trivial)))

/-- Otherwise it succeeds in the first tick, and again in the second one. -/
theorem fires_twice :
    ((run (stepCron letters) (.start ∅ 500)
        (twoTicks false ++ [.finish (30 * second) .completed])).map
      fun s => s.successes.map CronJob.id) = some ["job-1", "job-1"] := by
  decide +kernel

end

/-! ## Consecutive errors

The calls of the scheduler, one after another. What they should amount to is the number of
failures of each job since its last success or re-enabling. -/

inductive Call where
  | addJob (now : Time) (maxTotalJobs : ℕ) (job : CronJob) (oneShot : Bool)
  | removeJob (id : CronJobId)
  | setEnabled (now : Time) (id : CronJobId) (enabled : Bool)
  | recordSuccess (now : Time) (id : CronJobId)
  | recordFailure (now : Time) (id : CronJobId) (errorMsg : List Char)

structure Counted where
  jobs : Jobs
  failures : CronJobId → ℕ

def Counted.start : Counted := ⟨∅, fun _ => 0⟩

/-- One call; `none` if it does not return. -/
def Call.exec (alphanumeric : Char → Bool) (s : Counted) : Call → Option Counted
  | .addJob now maxTotalJobs job oneShot =>
    match Cron.addJob alphanumeric now maxTotalJobs s.jobs job oneShot with
    | .ok jobs => some ⟨jobs, Function.update s.failures job.id 0⟩
    | .error _ => some s
  | .removeJob id =>
    match Cron.removeJob s.jobs id with
    | .ok removed => some { s with jobs := removed.2 }
    | .error _ => some s
  | .setEnabled now id enabled =>
    match Cron.setEnabled now s.jobs id enabled with
    | .ok jobs => some ⟨jobs, if enabled then Function.update s.failures id 0 else s.failures⟩
    | .error _ => some s
  | .recordSuccess now id =>
    some ⟨Cron.recordSuccess now s.jobs id, Function.update s.failures id 0⟩
  | .recordFailure now id errorMsg =>
    let recorded := Cron.recordFailure now s.jobs id errorMsg
    if recorded.2 then
      some ⟨recorded.1, Function.update s.failures id (s.failures id + 1)⟩
    else none

/-- What the counter of a job and its other fields should say after `n` failures. -/
structure JobMeta.Right (entry : JobMeta) (n : ℕ) : Prop where
  errors : entry.consecutiveErrors = n
  enabled : entry.job.enabled = true → n < maxConsecutiveErrors ∧ entry.job.nextRun.isSome = true

def Counted.Right (s : Counted) : Prop :=
  ∀ id entry, s.jobs.lookup id = some entry → entry.Right (s.failures id)

/-- The caller decides whether the job is enabled. -/
def Call.decides : Call → CronJobId → Prop
  | .addJob _ _ job _, id => job.id = id
  | .setEnabled _ id' _, id => id' = id
  | _, _ => False

/-- A call leaves every job as its failures say, and disables it if it has failed too often. -/
structure Counts (s : Counted) (call : Call) (s' : Counted) : Prop where
  right : s'.Right
  disabled : ∀ id entry entry', s.jobs.lookup id = some entry → entry.job.enabled = true →
    s'.jobs.lookup id = some entry' → ¬ call.decides id →
      (entry'.job.enabled = false ↔ s'.failures id = maxConsecutiveErrors)

/-- The text of an error can be cut after 256 bytes, and the counter of 32 bits is not full. -/
def Recordable (s : Counted) : Call → Prop
  | .recordFailure _ id errorMsg => ∀ entry, s.jobs.lookup id = some entry →
      RustStr.Boundary errorMsg (min (RustStr.utf8Len errorMsg) 256) ∧ s.failures id + 1 < 2 ^ 32
  | _ => True

variable (alphanumeric : Char → Bool) {now : Time} {id : CronJobId} {entry : JobMeta}
  {s s' : Counted} {call : Call} {f : CronJobId → ℕ}

theorem right_insert (h : Counted.Right ⟨jobs, f⟩) (hentry : entry.Right n) :
    Counted.Right ⟨jobs.insert id entry, Function.update f id n⟩ := by
  intro id' entry' h'
  dsimp only at h' ⊢
  rw [Table.lookup_insert_eq] at h'
  rw [Function.update_apply]
  split_ifs at h' ⊢ with hid
  · exact some.inj h' ▸ hentry
  · exact h id' entry' h'

theorem right_erase (h : Counted.Right ⟨jobs, f⟩) {g : CronJobId → ℕ}
    (hg : ∀ id', id' ≠ id → g id' = f id') : Counted.Right ⟨jobs.erase id, g⟩ := by
  intro id' entry h'
  dsimp only at h' ⊢
  rw [Table.lookup_erase_eq] at h'
  split_ifs at h' with hid
  exact hg id' hid ▸ h id' entry h'

theorem counts_of_right (hright : s'.Right)
    (hstays : ∀ id entry entry', s.jobs.lookup id = some entry → entry.job.enabled = true →
      s'.jobs.lookup id = some entry' → ¬ call.decides id →
        entry'.job.enabled = true ∨ s'.failures id = maxConsecutiveErrors) : Counts s call s' := by
  refine ⟨hright, fun id entry entry' hentry henabled hentry' hcall => ⟨fun hoff => ?_, ?_⟩⟩
  · refine (hstays id entry entry' hentry henabled hentry' hcall).resolve_left fun hon => ?_
    cases hoff.symm.trans hon
  · refine fun hmax => Bool.eq_false_iff.mpr fun hon => ?_
    exact hmax.not_lt ((hright id entry' hentry').enabled hon).1

theorem counts_same (hright : s.Right) : Counts s call s := by
  refine counts_of_right hright fun id entry entry' hentry henabled hentry' _ => .inl ?_
  cases hentry.symm.trans hentry'
  exact henabled

theorem counts_insert (hright : s.Right) {entry' : JobMeta} {n : ℕ} (hentry' : entry'.Right n)
    (hstays : ∀ entry, s.jobs.lookup id = some entry → entry.job.enabled = true →
      ¬ call.decides id → entry'.job.enabled = true ∨ n = maxConsecutiveErrors) :
    Counts s call ⟨s.jobs.insert id entry', Function.update s.failures id n⟩ := by
  refine counts_of_right (right_insert hright hentry') fun id' entry₀ entry₁ h₀ hon h₁ hcall => ?_
  dsimp only at h₁ ⊢
  rw [Table.lookup_insert_eq] at h₁
  rw [Function.update_apply]
  split_ifs at h₁ ⊢ with hid
  · subst hid
    exact some.inj h₁ ▸ hstays entry₀ h₀ hon hcall
  · exact .inl (some.inj (h₀.symm.trans h₁) ▸ hon)

theorem counts_erase (hright : s.Right) {g : CronJobId → ℕ}
    (hg : ∀ id', id' ≠ id → g id' = s.failures id') : Counts s call ⟨s.jobs.erase id, g⟩ := by
  refine counts_of_right (right_erase hright hg) fun id' entry entry' hentry hon hentry' _ => ?_
  rw [Table.lookup_erase_eq] at hentry'
  split_ifs at hentry'
  exact .inl (some.inj (hentry.symm.trans hentry') ▸ hon)

/-- A call for a job that is not stored. -/
theorem counts_unknown (hright : s.Right) (hid : s.jobs.lookup id = none) (n : ℕ) :
    Counts s call ⟨s.jobs, Function.update s.failures id n⟩ := by
  have hcounts := @counts_erase id s call hright (Function.update s.failures id n)
    fun _ hne => Function.update_of_ne hne _ _
  rwa [Table.erase_eq_self hid] at hcounts

/-- A failure is counted exactly if it can be recorded. -/
theorem counts_recordFailure (hright : s.Right) (errorMsg : List Char) :
    (∃ s', Call.exec alphanumeric s (.recordFailure now id errorMsg) = some s' ∧
      Counts s (.recordFailure now id errorMsg) s') ↔
      Recordable s (.recordFailure now id errorMsg) := by
  simp only [Call.exec, recordFailure, Recordable]
  cases hentry : s.jobs.lookup id with
  | none =>
    exact iff_of_true ⟨_, rfl, counts_unknown hright hentry _⟩ (by rintro entry ⟨⟩)
  | some entry =>
    have herrors := (hright id entry hentry).errors
    simp only [some.injEq, forall_eq', ← RustStr.isSome_takeBytes?]
    cases RustStr.takeBytes? (min (RustStr.utf8Len errorMsg) 256) errorMsg with
    | none => exact iff_of_false (by rintro ⟨s', ⟨⟩, -⟩) (by rintro ⟨⟨⟩, -⟩)
    | some cut =>
      simp only [herrors, isSome_some, true_and]
      constructor
      · rintro ⟨s', hs', hcounts⟩
        -- the counter that is stored is below `2 ^ 32`
        have hstored : ∃ entry', s'.jobs.lookup id = some entry' ∧
            entry'.consecutiveErrors = (s.failures id + 1) % 2 ^ 32 ∧
            s'.failures id = s.failures id + 1 := by
          split at hs' <;>
          · cases hs'
            exact ⟨_, AList.lookup_insert _, rfl, Function.update_self ..⟩
        obtain ⟨entry', hentry', herrors', hfailures⟩ := hstored
        have hright' := (hcounts.right id entry' hentry').errors
        omega
      · intro hlt
        rw [Nat.mod_eq_of_lt hlt]
        split
        · rename_i hmax
          refine ⟨_, rfl, counts_insert hright ⟨rfl, nofun⟩ fun entry₀ h₀ hon _ => .inr ?_⟩
          cases hentry.symm.trans h₀
          have hlt := ((hright id entry hentry).enabled hon).1
          omega
        · rename_i hmax
          refine ⟨_, rfl, counts_insert hright ⟨rfl, fun _ => ⟨Nat.lt_of_not_le hmax, rfl⟩⟩ ?_⟩
          intro entry₀ h₀ hon _
          cases hentry.symm.trans h₀
          exact .inl hon

theorem counts_step (s : Counted) (call : Call) (hright : s.Right) :
    (∃ s', call.exec alphanumeric s = some s' ∧ Counts s call s') ↔ Recordable s call := by
  cases call with
  | addJob now maxTotalJobs job oneShot =>
    refine iff_of_true ?_ trivial
    simp only [Call.exec]
    split
    · rename_i jobs hadd
      refine ⟨_, rfl, ?_⟩
      rw [addJob_eq_ok hadd]
      exact counts_insert hright ⟨rfl, fun _ => ⟨by decide, rfl⟩⟩ fun _ _ _ h => absurd rfl h
    · exact ⟨s, rfl, counts_same hright⟩
  | removeJob id =>
    refine iff_of_true ?_ trivial
    simp only [Call.exec, removeJob]
    cases s.jobs.lookup id with
    | none => exact ⟨s, rfl, counts_same hright⟩
    | some entry => exact ⟨_, rfl, counts_erase hright fun _ _ => rfl⟩
  | setEnabled now id enabled =>
    refine iff_of_true ?_ trivial
    simp only [Call.exec, setEnabled]
    cases hentry : s.jobs.lookup id with
    | none => exact ⟨s, rfl, counts_same hright⟩
    | some entry =>
      cases enabled with
      | true =>
        exact ⟨_, rfl, counts_insert hright ⟨rfl, fun _ => ⟨by decide, rfl⟩⟩
          fun _ _ _ h => absurd rfl h⟩
      | false =>
        have hcounts := @counts_insert id s (.setEnabled now id false) hright
          { entry with job := { entry.job with enabled := false } } (s.failures id)
          ⟨(hright id entry hentry).errors, nofun⟩ fun _ _ _ h => absurd rfl h
        rw [Function.update_eq_self] at hcounts
        exact ⟨_, rfl, hcounts⟩
  | recordSuccess now id =>
    refine iff_of_true ⟨_, rfl, ?_⟩ trivial
    simp only [recordSuccess]
    cases hentry : s.jobs.lookup id with
    | none => exact counts_unknown hright hentry 0
    | some entry =>
      dsimp only
      split
      · exact counts_erase hright fun _ hne => Function.update_of_ne hne _ _
      · refine counts_insert hright ⟨rfl, fun _ => ⟨by decide, rfl⟩⟩ fun entry₀ h₀ hon _ => .inl ?_
        cases hentry.symm.trans h₀
        exact hon
  | recordFailure now id errorMsg => exact counts_recordFailure alphanumeric hright errorMsg

/-- **Every failure is counted**, exactly if each failure can be recorded. -/
theorem cron_counts (alphanumeric : Char → Bool) (calls : List Call) :
    Steps (Call.exec alphanumeric) Counts .start calls ↔
      Guarded (Call.exec alphanumeric) Recordable .start calls := by
  apply @steps_iff_guarded _ _ _ _ Counted.Right
  · exact fun _ _ _ _ _ hcounts => hcounts.right
  · exact counts_step alphanumeric
  · rintro id entry ⟨⟩

def euroError : List Char := List.replicate 86 '€'

theorem euroError_aborts :
    (run (Call.exec letters) .start
      [.addJob 0 500 reminder false, .recordFailure second "job-1" euroError]).isNone = true := by
  decide +kernel

end AlloyAgent.Cron
