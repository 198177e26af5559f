import AlloyAgent.HashTable
import AlloyAgent.Transition

/-!
# Processes of agents

Agents start long-running processes, poll their output, write to their input and kill them, each by
a tool call.

* `apply`: the tools; `stepTools`: agents use them, processes print;
* `Alike`: states that an agent cannot tell apart;
* `process_isolation`: what agents that name their own processes get to see.
-/

namespace AlloyAgent

open List Transition

namespace Processes

abbrev AgentId := String

abbrev ProcessId := String

/-- A process: its input (`none` if it is closed), its unread output, and its owner. -/
structure ManagedProcess where
  stdin : Option (List String)
  stdoutBuf : List String
  stderrBuf : List String
  agentId : AgentId
  command : String
  deriving DecidableEq

/-- A buffer after one more line: it is capped at 1000 lines. -/
def pushLine (buf : List String) (line : String) : List String :=
  (if buf.length ≥ 1000 then buf.drop 100 else buf) ++ [line]

def ManagedProcess.printed (proc : ManagedProcess) (stderr : Bool) (line : String) :
    ManagedProcess :=
  if stderr then { proc with stderrBuf := pushLine proc.stderrBuf line }
  else { proc with stdoutBuf := pushLine proc.stdoutBuf line }

structure ProcessManager where
  processes : Table ProcessId ManagedProcess
  maxPerAgent : ℕ
  nextId : ℕ

def ProcessManager.new (maxPerAgent : ℕ) : ProcessManager := ⟨∅, maxPerAgent, 1⟩

/-- How a write ends; if it fails, a part of the data may have been written. -/
inductive WriteOutcome where
  | written
  | writeFailed (part : String) (error : String)
  | flushFailed (error : String)
  deriving DecidableEq

inductive Reply where
  | started (processId : ProcessId)
  | output (stdout stderr : List String)
  | written
  | killed
  deriving DecidableEq

namespace ProcessManager

variable (pm : ProcessManager)

def agentCount (agentId : AgentId) : ℕ :=
  (pm.processes.pairs.filter fun p => p.2.agentId = agentId).length

/-- `spawned` says why the command cannot be started, or whether the process has an input. -/
def start (agentId : AgentId) (command : String) (args : List String)
    (spawned : Except String Bool) : ProcessManager × Except String Reply :=
  let count := pm.agentCount agentId
  let max := pm.maxPerAgent
  if count ≥ max then
    (pm, .error s!"Agent '{agentId}' already has {count} processes (max: {max})")
  else
    match spawned with
    | .error e => (pm, .error s!"Failed to start process '{command}': {e}")
    | .ok hasInput =>
      let n := pm.nextId
      let id := s!"proc_{n}"
      let display := if args.isEmpty then command else command ++ " " ++ " ".intercalate args
      let proc : ManagedProcess :=
        ⟨if hasInput then some [] else none, [], [], agentId, display⟩
      ({ pm with processes := pm.processes.insert id proc, nextId := (n + 1) % 2 ^ 64 },
        .ok (.started id))

/-- Write data to a process's stdin. -/
def write (processId : ProcessId) (data : String) (outcome : WriteOutcome) :
    ProcessManager × Except String Reply :=
  match pm.processes.lookup processId with
  | none => (pm, .error s!"Process '{processId}' not found")
  | some proc =>
    match proc.stdin with
    | none => (pm, .error "Process stdin is closed")
    | some sent =>
      let sending (data : String) : ProcessManager :=
        { pm with
          processes := pm.processes.insert processId { proc with stdin := some (sent ++ [data]) } }
      match outcome with
      | .writeFailed part e => (sending part, .error s!"Write failed: {e}")
      | .flushFailed e => (sending data, .error s!"Flush failed: {e}")
      | .written => (sending data, .ok .written)

/-- Read accumulated output. -/
def read (processId : ProcessId) : ProcessManager × Except String Reply :=
  match pm.processes.lookup processId with
  | none => (pm, .error s!"Process '{processId}' not found")
  | some proc =>
    ({ pm with
        processes := pm.processes.insert processId { proc with stdoutBuf := [], stderrBuf := [] } },
      .ok (.output proc.stdoutBuf proc.stderrBuf))

def kill (processId : ProcessId) : ProcessManager × Except String Reply :=
  match pm.processes.lookup processId with
  | none => (pm, .error s!"Process '{processId}' not found")
  | some _ => ({ pm with processes := pm.processes.erase processId }, .ok .killed)

def print (processId : ProcessId) (stderr : Bool) (line : String) : ProcessManager :=
  match pm.processes.lookup processId with
  | none => pm
  | some proc =>
    { pm with processes := pm.processes.insert processId (proc.printed stderr line) }

end ProcessManager

/-- A tool call with its parameters, which may be missing, and what the system answers to it. -/
inductive ToolCall where
  | processStart (command : Option String) (args : List String) (spawned : Except String Bool)
  | processPoll (processId : Option ProcessId)
  | processWrite (processId : Option ProcessId) (data : Option String) (outcome : WriteOutcome)
  | processKill (processId : Option ProcessId)

def withNewline (data : String) : String :=
  if data.toList.getLast? = some '\n' then data else data ++ "\n"

/-- The four tools for processes; only the first one is told who calls. -/
def ProcessManager.apply (pm : ProcessManager) (caller : AgentId) :
    ToolCall → ProcessManager × Except String Reply
  | .processStart none _ _ => (pm, .error "Missing 'command' parameter")
  | .processStart (some command) args spawned => pm.start caller command args spawned
  | .processPoll none => (pm, .error "Missing 'process_id' parameter")
  | .processPoll (some id) => pm.read id
  | .processWrite none _ _ => (pm, .error "Missing 'process_id' parameter")
  | .processWrite (some _) none _ => (pm, .error "Missing 'data' parameter")
  | .processWrite (some id) (some data) outcome => pm.write id (withNewline data) outcome
  | .processKill none => (pm, .error "Missing 'process_id' parameter")
  | .processKill (some id) => pm.kill id

def ToolCall.target : ToolCall → Option ProcessId
  | .processStart _ _ _ => none
  | .processPoll id => id
  | .processWrite id _ _ => id
  | .processKill id => id

/-- A call that has been answered, with the owner of the process that it names. -/
structure Answer where
  caller : AgentId
  call : ToolCall
  result : Except String Reply
  owner : Option AgentId

structure Tools where
  pm : ProcessManager
  answers : List Answer

def Tools.new (maxPerAgent : ℕ) : Tools := ⟨.new maxPerAgent, []⟩

/-- An agent calls a tool; without an id it is the agent `default`. Or a process prints. -/
inductive Event where
  | call (callerAgentId : Option AgentId) (call : ToolCall)
  | print (processId : ProcessId) (stderr : Bool) (line : String)

def ProcessManager.owner (pm : ProcessManager) (id : ProcessId) : Option AgentId :=
  (pm.processes.lookup id).map ManagedProcess.agentId

def stepTools (s : Tools) : Event → Option Tools
  | .call callerAgentId call =>
    let caller := callerAgentId.getD "default"
    let result := s.pm.apply caller call
    some ⟨result.1, s.answers ++ [⟨caller, call, result.2, call.target.bind s.pm.owner⟩]⟩
  | .print id stderr line => some { s with pm := s.pm.print id stderr line }

/-! ## What an agent sees -/

/-- A call that succeeds and names a process is about a process of the caller. -/
def Answer.Own (answer : Answer) : Prop :=
  ∀ reply, answer.result = .ok reply → answer.call.target ≠ none →
    answer.owner = some answer.caller

def Tools.answersTo (s : Tools) (agent : AgentId) : List Answer :=
  s.answers.filter fun answer => answer.caller = agent

/-- A process that is not the agent's prints a line. -/
def printedElsewhere (agent : AgentId) (s : Tools) : Event → Bool
  | .call _ _ => false
  | .print id _ _ => s.pm.owner id ≠ some agent

/-- A poll, write or kill does not name a process of another agent. -/
def NamesOwn (s : Tools) : Event → Prop
  | .call callerAgentId call =>
    ∀ id, call.target = some id → ∀ owner, s.pm.owner id = some owner →
      owner = callerAgentId.getD "default"
  | .print _ _ _ => True

/-- What is left of a process if the output that another agent's process has printed is hidden. -/
def hideProcess (agent : AgentId) (proc : ManagedProcess) : ManagedProcess :=
  if proc.agentId = agent then proc else { proc with stdoutBuf := [], stderrBuf := [] }

@[simp] theorem agentId_hideProcess (agent : AgentId) (proc : ManagedProcess) :
    (hideProcess agent proc).agentId = proc.agentId := by
  rw [hideProcess]
  split <;> rfl

variable {proc proc' : ManagedProcess}

theorem hideProcess_eq_iff :
    hideProcess agent proc = hideProcess agent proc' ↔
      (proc.stdin = proc'.stdin ∧ proc.agentId = proc'.agentId ∧ proc.command = proc'.command) ∧
        (proc.agentId = agent →
          proc.stdoutBuf = proc'.stdoutBuf ∧ proc.stderrBuf = proc'.stderrBuf) := by
  obtain ⟨stdin, out, err, owner, command⟩ := proc
  obtain ⟨stdin', out', err', owner', command'⟩ := proc'
  simp only [hideProcess]
  split_ifs <;> grind

theorem hideProcess_printed (h : hideProcess agent proc = hideProcess agent proc') (stderr : Bool)
    (line : String) :
    hideProcess agent (proc.printed stderr line) =
      hideProcess agent (proc'.printed stderr line) := by
  obtain ⟨hrest, hbufs⟩ := hideProcess_eq_iff.mp h
  cases stderr with
  | false =>
    refine hideProcess_eq_iff.mpr ⟨hrest, fun hown => ⟨?_, (hbufs hown).2⟩⟩
    exact congrArg (pushLine · line) (hbufs hown).1
  | true =>
    refine hideProcess_eq_iff.mpr ⟨hrest, fun hown => ⟨(hbufs hown).1, ?_⟩⟩
    exact congrArg (pushLine · line) (hbufs hown).2

theorem hideProcess_printed_elsewhere (h : proc.agentId ≠ agent) (stderr : Bool) (line : String) :
    hideProcess agent (proc.printed stderr line) = hideProcess agent proc := by
  cases stderr with
  | false => exact hideProcess_eq_iff.mpr ⟨⟨rfl, rfl, rfl⟩, fun hown => absurd hown h⟩
  | true => exact hideProcess_eq_iff.mpr ⟨⟨rfl, rfl, rfl⟩, fun hown => absurd hown h⟩

/-- Two managers differ at most in the output of other agents' processes. -/
structure Alike (agent : AgentId) (pm pm' : ProcessManager) : Prop where
  maxPerAgent : pm.maxPerAgent = pm'.maxPerAgent
  nextId : pm.nextId = pm'.nextId
  lookup : ∀ id, (pm.processes.lookup id).map (hideProcess agent) =
    (pm'.processes.lookup id).map (hideProcess agent)

variable {pm pm' : ProcessManager} {agent : AgentId}

theorem Alike.refl (agent : AgentId) (pm : ProcessManager) : Alike agent pm pm :=
  ⟨rfl, rfl, fun _ => rfl⟩

@[elab_as_elim]
theorem Alike.cases {motive : Option ManagedProcess → Option ManagedProcess → Prop}
    (h : Alike agent pm pm') (id : ProcessId) (hnone : motive none none)
    (hsome : ∀ proc proc', pm.processes.lookup id = some proc →
      hideProcess agent proc = hideProcess agent proc' → motive (some proc) (some proc')) :
    motive (pm.processes.lookup id) (pm'.processes.lookup id) := by
  have hid := h.lookup id
  cases hproc : pm.processes.lookup id with
  | none =>
    rw [hproc, Option.map_none, eq_comm, Option.map_eq_none_iff] at hid
    exact hid ▸ hnone
  | some proc =>
    rw [hproc, Option.map_some, eq_comm, Option.map_eq_some_iff] at hid
    obtain ⟨proc', hproc', heq⟩ := hid
    exact hproc' ▸ hsome proc proc' hproc heq.symm

theorem Alike.owner (h : Alike agent pm pm') (id : ProcessId) : pm.owner id = pm'.owner id := by
  rw [ProcessManager.owner, ProcessManager.owner]
  refine h.cases id rfl fun proc proc' _ heq => ?_
  rw [Option.map_some, Option.map_some, ← agentId_hideProcess agent proc, heq, agentId_hideProcess]

theorem agentCount_hide (agent : AgentId) (pm : ProcessManager) (caller : AgentId) :
    pm.agentCount caller =
      ((pm.processes.mapValues (hideProcess agent)).pairs.filter
        fun p => p.2.agentId = caller).length := by
  rw [ProcessManager.agentCount, Table.pairs_mapValues, filter_map, length_map]
  simp [Function.comp_def]

section

variable (h : Alike agent pm pm')
include h

variable (caller : AgentId)

theorem Alike.agentCount : pm.agentCount caller = pm'.agentCount caller := by
  rw [agentCount_hide agent, agentCount_hide agent]
  refine (List.Perm.filter _ (Table.pairs_perm fun id => ?_)).length_eq
  rw [Table.lookup_mapValues, Table.lookup_mapValues, h.lookup id]

theorem Alike.insert (id : ProcessId) (hproc : hideProcess agent proc = hideProcess agent proc') :
    Alike agent { pm with processes := pm.processes.insert id proc }
      { pm' with processes := pm'.processes.insert id proc' } := by
  refine ⟨h.maxPerAgent, h.nextId, fun id' => ?_⟩
  rw [Table.lookup_insert_eq, Table.lookup_insert_eq]
  split_ifs
  · rw [Option.map_some, Option.map_some, hproc]
  · exact h.lookup id'

theorem Alike.erase (id : ProcessId) :
    Alike agent { pm with processes := pm.processes.erase id }
      { pm' with processes := pm'.processes.erase id } := by
  refine ⟨h.maxPerAgent, h.nextId, fun id' => ?_⟩
  rw [Table.lookup_erase_eq, Table.lookup_erase_eq]
  split_ifs
  · rfl
  · exact h.lookup id'

theorem Alike.start (command : String) (args : List String) (spawned : Except String Bool) :
    Alike agent (pm.start caller command args spawned).1
        (pm'.start caller command args spawned).1 ∧
      (pm.start caller command args spawned).2 = (pm'.start caller command args spawned).2 := by
  simp only [ProcessManager.start, ← h.agentCount caller, ← h.maxPerAgent, ← h.nextId]
  split
  · exact ⟨h, rfl⟩
  · split
    · exact ⟨h, rfl⟩
    · exact ⟨⟨rfl, rfl, (h.insert _ rfl).lookup⟩, rfl⟩

variable (id : ProcessId)

theorem Alike.write (data : String) (outcome : WriteOutcome) :
    Alike agent (pm.write id data outcome).1 (pm'.write id data outcome).1 ∧
      (pm.write id data outcome).2 = (pm'.write id data outcome).2 := by
  rw [ProcessManager.write, ProcessManager.write]
  refine h.cases id ⟨h, rfl⟩ fun proc proc' _ heq => ?_
  obtain ⟨⟨hstdin, howner, hcommand⟩, hbufs⟩ := hideProcess_eq_iff.mp heq
  simp only [← hstdin]
  split
  · exact ⟨h, rfl⟩
  · cases outcome <;>
      exact ⟨h.insert id (hideProcess_eq_iff.mpr ⟨⟨rfl, howner, hcommand⟩, hbufs⟩), rfl⟩

theorem Alike.kill :
    Alike agent (pm.kill id).1 (pm'.kill id).1 ∧ (pm.kill id).2 = (pm'.kill id).2 := by
  rw [ProcessManager.kill, ProcessManager.kill]
  exact h.cases id ⟨h, rfl⟩ fun _ _ _ _ => ⟨h.erase id, rfl⟩

theorem Alike.read :
    Alike agent (pm.read id).1 (pm'.read id).1 ∧
      ((∀ owner, pm.owner id = some owner → owner = agent) →
        (pm.read id).2 = (pm'.read id).2) := by
  rw [ProcessManager.read, ProcessManager.read]
  refine h.cases id ⟨h, fun _ => rfl⟩ fun proc proc' hproc heq => ?_
  obtain ⟨hrest, hbufs⟩ := hideProcess_eq_iff.mp heq
  refine ⟨h.insert id (hideProcess_eq_iff.mpr ⟨hrest, fun _ => ⟨rfl, rfl⟩⟩), fun howner => ?_⟩
  have hown : proc.agentId = agent := howner _ (by rw [ProcessManager.owner, hproc]; rfl)
  exact congrArg Except.ok (congrArg₂ Reply.output (hbufs hown).1 (hbufs hown).2)

theorem Alike.print_elsewhere {id : ProcessId} (hid : pm.owner id ≠ some agent) (stderr : Bool)
    (line : String) : Alike agent (pm.print id stderr line) pm' := by
  rw [ProcessManager.print]
  cases hproc : pm.processes.lookup id with
  | none => exact h
  | some proc =>
    have hother : proc.agentId ≠ agent := by
      rintro rfl
      exact hid (by rw [ProcessManager.owner, hproc]; rfl)
    refine ⟨h.maxPerAgent, h.nextId, fun id' => ?_⟩
    rw [← h.lookup id', Table.lookup_insert_eq]
    split_ifs with hid'
    · rw [hid', hproc, Option.map_some, Option.map_some, hideProcess_printed_elsewhere hother]
    · rfl

theorem Alike.print (stderr : Bool) (line : String) :
    Alike agent (pm.print id stderr line) (pm'.print id stderr line) := by
  rw [ProcessManager.print, ProcessManager.print]
  exact h.cases id h fun _ _ _ heq => h.insert id (hideProcess_printed heq stderr line)

/-- **What a call does.** Managers that look alike to an agent do so after any call. -/
theorem Alike.apply (call : ToolCall) :
    Alike agent (pm.apply caller call).1 (pm'.apply caller call).1 ∧
      ((∀ id, call.target = some id → ∀ owner, pm.owner id = some owner → owner = agent) →
        (pm.apply caller call).2 = (pm'.apply caller call).2) := by
  rcases call with ⟨_ | command, args, spawned⟩ | ⟨_ | id⟩ | ⟨_ | id, _ | data, outcome⟩ | ⟨_ | id⟩
  case processStart.some =>
    obtain ⟨halike, hresult⟩ := h.start caller command args spawned
    exact ⟨halike, fun _ => hresult⟩
  case processPoll.some => exact ⟨(h.read id).1, fun hown => (h.read id).2 (hown id rfl)⟩
  case processWrite.some.some =>
    obtain ⟨halike, hresult⟩ := h.write id (withNewline data) outcome
    exact ⟨halike, fun _ => hresult⟩
  case processKill.some => exact ⟨(h.kill id).1, fun _ => (h.kill id).2⟩
  all_goals exact ⟨h, fun _ => rfl⟩

end

structure LooksAlike (agent : AgentId) (s s' : Tools) : Prop where
  pm : Alike agent s.pm s'.pm
  answers : s.answersTo agent = s'.answersTo agent

theorem looksAlike_step (agent : AgentId) (s : Tools) (e : Event) (s' t : Tools)
    (h : LooksAlike agent s t) (hok : NamesOwn s e) (hstep : stepTools s e = some s') :
    ∃ t', stepTools t e = some t' ∧ LooksAlike agent s' t' := by
  cases e with
  | call callerAgentId call =>
    cases hstep
    obtain ⟨halike, hresult⟩ := h.pm.apply (callerAgentId.getD "default") call
    refine ⟨_, rfl, halike, ?_⟩
    simp only [Tools.answersTo, filter_append]
    refine congrArg₂ _ h.answers ?_
    by_cases hcaller : callerAgentId.getD "default" = agent
    · -- a call of the agent itself
      have hown := hresult fun id hid owner howner => (hok id hid owner howner).trans hcaller
      rw [hown, funext h.pm.owner]
    · rw [filter_cons_of_neg (by simpa using hcaller),
        filter_cons_of_neg (by simpa using hcaller)]
  | print id stderr line =>
    cases hstep
    exact ⟨_, rfl, h.pm.print id stderr line, h.answers⟩

theorem looksAlike_skip (agent : AgentId) (s : Tools) (e : Event) (s' t : Tools)
    (h : LooksAlike agent s t) (hhidden : printedElsewhere agent s e = true)
    (hstep : stepTools s e = some s') : LooksAlike agent s' t := by
  cases e with
  | call callerAgentId call => cases hhidden
  | print id stderr line =>
    cases hstep
    exact ⟨h.pm.print_elsewhere (of_decide_eq_true hhidden) stderr line, h.answers⟩

theorem exists_owner {caller : AgentId} {call : ToolCall} {id : ProcessId} {reply : Reply}
    (hid : call.target = some id) (hok : (pm.apply caller call).2 = .ok reply) :
    ∃ owner, pm.owner id = some owner := by
  rw [ProcessManager.owner]
  cases hlookup : pm.processes.lookup id with
  | some proc => exact ⟨proc.agentId, rfl⟩
  | none =>
    cases call with
    | processStart => cases hid
    | processPoll =>
      cases hid
      simp [ProcessManager.apply, ProcessManager.read, hlookup] at hok
    | processWrite _ data =>
      cases hid
      cases data <;> simp [ProcessManager.apply, ProcessManager.write, hlookup] at hok
    | processKill =>
      cases hid
      simp [ProcessManager.apply, ProcessManager.kill, hlookup] at hok

theorem own_step (s : Tools) (e : Event) (s' : Tools) (h : ∀ answer ∈ s.answers, answer.Own)
    (hok : NamesOwn s e) (hstep : stepTools s e = some s') : ∀ answer ∈ s'.answers, answer.Own := by
  cases e with
  | print => cases hstep; exact h
  | call callerAgentId call =>
    cases hstep
    intro answer hanswer
    rcases mem_append.mp hanswer with hold | hnew
    · exact h answer hold
    · rw [mem_singleton.mp hnew]
      intro reply hreply htarget
      obtain ⟨id, hid⟩ := Option.ne_none_iff_exists'.mp htarget
      obtain ⟨owner, howner⟩ := exists_owner hid hreply
      rw [hid, Option.bind_some, howner, hok id hid owner howner]

/-- **Isolation**, in a run in which no call names the process of another agent. -/
theorem process_isolation (maxPerAgent : ℕ) (es : List Event) (s : Tools)
    (hown : Guarded stepTools NamesOwn (.new maxPerAgent) es)
    (hrun : run stepTools (.new maxPerAgent) es = some s) :
    (∀ answer ∈ s.answers, answer.Own) ∧
      ∀ agent, ∃ t,
        run stepTools (.new maxPerAgent)
            (purge stepTools (printedElsewhere agent) (.new maxPerAgent) es) = some t ∧
          t.answersTo agent = s.answersTo agent := by
  refine ⟨run_guarded own_step es (fun _ h => absurd h not_mem_nil) hown hrun,
    fun agent => ?_⟩
  obtain ⟨t, ht, halike⟩ :=
    run_purge (looksAlike_skip agent)
      (fun s e s' t halike hok _ hstep => looksAlike_step agent s e s' t halike hok hstep)
      es ⟨Alike.refl agent _, rfl⟩ hown hrun
  exact ⟨t, ht, halike.answers.symm⟩

def startAndPrint : List Event :=
  [.call (some "agent1") (.processStart (some "python3") ["-i"] (.ok true)),
    .print "proc_1" false "token = 4711"]

def ownPoll : List Event :=
  startAndPrint ++ [.call (some "agent1") (.processPoll (some "proc_1"))]

def guessedPoll : List Event :=
  startAndPrint ++
    [.call (some "agent2") (.processPoll (some "proc_1")),
      .call (some "agent2") (.processKill (some "proc_1"))]

def Tools.told (s : Tools) (agent : AgentId) : List (Except String Reply × Option AgentId) :=
  (s.answersTo agent).map fun answer => (answer.result, answer.owner)

theorem ownPoll_isolated :
    ∃ s, run stepTools (.new 5) ownPoll = some s ∧
      s.told "agent1" =
        [(.ok (.started "proc_1"), none), (.ok (.output ["token = 4711"] []), some "agent1")] ∧
      (∀ answer ∈ s.answers, answer.Own) ∧
      ∀ agent, ∃ t,
        run stepTools (.new 5)
            (purge stepTools (printedElsewhere agent) (.new 5) ownPoll) = some t ∧
          t.answersTo agent = s.answersTo agent := by
  refine ⟨_, rfl, by decide, process_isolation 5 ownPoll _ ?_ rfl⟩
  refine .cons ?_ rfl (.cons trivial rfl (.cons ?_ rfl trivial))
  · rintro id ⟨⟩
  · rintro id ⟨⟩ owner howner
    exact (Option.some.inj howner).symm

/-- `agent2` reads what the process of `agent1` has printed, and ends it. -/
theorem guessed_id :
    ∃ s, run stepTools (.new 5) guessedPoll = some s ∧
      s.told "agent2" =
        [(.ok (.output ["token = 4711"] []), some "agent1"), (.ok .killed, some "agent1")] ∧
      (¬ ∀ answer ∈ s.answers, answer.Own) ∧
      ∃ t,
        run stepTools (.new 5)
            (purge stepTools (printedElsewhere "agent2") (.new 5) guessedPoll) = some t ∧
          t.told "agent2" =
            [(.ok (.output [] []), some "agent1"), (.ok .killed, some "agent1")] := by
  refine ⟨_, rfl, by decide, fun h => ?_, _, rfl, by decide⟩
  have hown := h _ (mem_of_getElem? (i := 1) rfl) _ rfl (by decide)
  exact absurd hown (by decide)

end Processes

end AlloyAgent
