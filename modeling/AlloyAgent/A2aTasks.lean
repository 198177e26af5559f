import AlloyAgent.HashTable
import AlloyAgent.Transition

/-!
# The task store of the A2A protocol

`A2aTaskStore` keeps the tasks that other agents have sent, up to a number of them. A task is
finished when it is completed, failed or cancelled.

* `insert`, the updates of a task, and their runs from an empty store;
* `finished_stay_iff`: the runs in which a finished task stays as it is;
* `evicts_oldest_iff`: those in which a full store gives up its oldest finished task.
-/

namespace AlloyAgent

open Option

open List Transition

namespace A2aTasks

inductive A2aTaskStatus where
  | submitted | working | inputRequired | completed | cancelled | failed
  deriving DecidableEq

def A2aTaskStatus.isFinished : A2aTaskStatus → Bool
  | .completed | .failed | .cancelled => true
  | _ => false

structure A2aTask (μ α : Type) where
  id : String
  status : A2aTaskStatus
  messages : List μ
  artifacts : List α

/-- In-memory store for tracking A2A task lifecycle. -/
structure A2aTaskStore (μ α : Type) where
  tasks : Table String (A2aTask μ α)
  maxTasks : ℕ

abbrev Order (μ α : Type) := IterOrder (String × A2aTask μ α)

variable {μ α : Type}

namespace A2aTaskStore

def new (maxTasks : ℕ) : A2aTaskStore μ α := ⟨∅, maxTasks⟩

variable (order : Order μ α) (store : A2aTaskStore μ α) (taskId : String)

def evictKey : Option String :=
  ((order.arrange store.tasks.pairs).find? fun p => p.2.status.isFinished).map Prod.fst

/-- Insert a task; at capacity, a finished task is evicted if there is one. -/
def insert (task : A2aTask μ α) : A2aTaskStore μ α :=
  let tasks :=
    if store.tasks.size ≥ store.maxTasks then
      match store.evictKey order with
      | some key => store.tasks.erase key
      | none => store.tasks
    else store.tasks
  { store with tasks := tasks.insert task.id task }

def modify (f : A2aTask μ α → A2aTask μ α) : A2aTaskStore μ α :=
  match store.tasks.lookup taskId with
  | some task => { store with tasks := store.tasks.insert taskId (f task) }
  | none => store

/-- Update a task's status. -/
def updateStatus (status : A2aTaskStatus) : A2aTaskStore μ α × Bool :=
  (store.modify taskId fun task => { task with status := status },
    (store.tasks.lookup taskId).isSome)

/-- Complete a task with a response message and artifacts. -/
def complete (response : μ) (artifacts : List α) : A2aTaskStore μ α :=
  store.modify taskId fun task => { task with
    messages := task.messages ++ [response]
    artifacts := task.artifacts ++ artifacts
    status := .completed }

/-- Fail a task with an error message. -/
def fail (errorMessage : μ) : A2aTaskStore μ α :=
  store.modify taskId fun task => { task with
    messages := task.messages ++ [errorMessage]
    status := .failed }

def cancel : A2aTaskStore μ α × Bool := store.updateStatus taskId .cancelled

variable (f : A2aTask μ α → A2aTask μ α)

theorem lookup_modify (id : String) :
    (store.modify taskId f).tasks.lookup id =
      if id = taskId then (store.tasks.lookup id).map f else store.tasks.lookup id := by
  rw [modify]
  split <;> grind [Table.lookup_insert_eq]

theorem size_modify : (store.modify taskId f).tasks.size = store.tasks.size := by
  rw [modify]
  split <;> simp_all [Table.size_insert]

theorem lookup_insert (task : A2aTask μ α) (id : String) :
    (store.insert order task).tasks.lookup id =
      if id = task.id then some task
      else if store.maxTasks ≤ store.tasks.size ∧ store.evictKey order = some id then none
      else store.tasks.lookup id := by
  simp only [insert, Table.lookup_insert_eq]
  cases store.evictKey order with
  | none => simp
  | some key => grind [Table.lookup_erase_eq]

end A2aTaskStore

inductive Call (μ α : Type) where
  | insert (order : Order μ α) (task : A2aTask μ α)
  | updateStatus (taskId : String) (status : A2aTaskStatus)
  | complete (taskId : String) (response : μ) (artifacts : List α)
  | fail (taskId : String) (errorMessage : μ)
  | cancel (taskId : String)

/-- A store, and when each task was inserted. -/
structure Tracked (μ α : Type) where
  store : A2aTaskStore μ α
  insertedAt : String → ℕ
  now : ℕ

def Tracked.new (maxTasks : ℕ) : Tracked μ α := ⟨.new maxTasks, fun _ => 0, 0⟩

def Tracked.task? (s : Tracked μ α) (id : String) : Option (A2aTask μ α) := s.store.tasks.lookup id

def Call.exec (s : Tracked μ α) : Call μ α → Tracked μ α
  | .insert order task =>
    ⟨s.store.insert order task, Function.update s.insertedAt task.id s.now, s.now + 1⟩
  | .updateStatus taskId status => { s with store := (s.store.updateStatus taskId status).1 }
  | .complete taskId response artifacts =>
    { s with store := s.store.complete taskId response artifacts }
  | .fail taskId errorMessage => { s with store := s.store.fail taskId errorMessage }
  | .cancel taskId => { s with store := (s.store.cancel taskId).1 }

def step (s : Tracked μ α) (call : Call μ α) : Option (Tracked μ α) := some (call.exec s)

variable {s : Tracked μ α} {id : String} {task : A2aTask μ α} {call : Call μ α}

/-- A finished task is not changed; it may be evicted. -/
def KeepsFinished (s : Tracked μ α) (_ : Call μ α) (s' : Tracked μ α) : Prop :=
  ∀ id task task', s.task? id = some task → task.status.isFinished = true →
    s'.task? id = some task' → task' = task

/-- A call for a finished task that is stored writes nothing new. -/
def Respects (s : Tracked μ α) : Call μ α → Prop
  | .insert _ task => ∀ old, s.task? task.id = some old → old.status.isFinished = true → task = old
  | .updateStatus taskId status => ∀ old, s.task? taskId = some old →
      old.status.isFinished = true → status = old.status
  | .complete taskId _ _ | .fail taskId _ => ∀ old, s.task? taskId = some old →
      old.status.isFinished = false
  | .cancel taskId => ∀ old, s.task? taskId = some old →
      old.status.isFinished = true → .cancelled = old.status

theorem keepsFinished_modify {f : A2aTask μ α → A2aTask μ α} :
    KeepsFinished s call { s with store := s.store.modify id f } ↔
      ∀ old, s.task? id = some old → old.status.isFinished = true → f old = old := by
  simp only [KeepsFinished, Tracked.task?, A2aTaskStore.lookup_modify]
  refine ⟨fun h old hold hfinished => ?_, fun h id' old task' hold hfinished htask' => ?_⟩
  · exact h id old (f old) hold hfinished (by simp [hold])
  · split_ifs at htask' with hid
    · rw [hold, map_some, some.injEq] at htask'
      rw [← htask', h old (hid ▸ hold) hfinished]
    · exact some.inj (htask'.symm.trans hold)

theorem keepsFinished_insert :
    KeepsFinished s call (Call.exec s (.insert order task)) ↔
      ∀ old, s.task? task.id = some old → old.status.isFinished = true → task = old := by
  simp only [KeepsFinished, Tracked.task?, Call.exec, A2aTaskStore.lookup_insert]
  refine ⟨fun h old hold hfinished => ?_, fun h id old task' hold hfinished htask' => ?_⟩
  · exact h task.id old task hold hfinished (if_pos rfl)
  · split_ifs at htask' with hid
    · exact some.inj htask' ▸ h old (hid ▸ hold) hfinished
    · exact some.inj (htask'.symm.trans hold)

theorem keepsFinished_exec (s : Tracked μ α) (call : Call μ α) :
    KeepsFinished s call (call.exec s) ↔ Respects s call := by
  have hstatus (status : A2aTaskStatus) (old : A2aTask μ α) :
      { old with status := status } = old ↔ status = old.status := by
    cases old
    simp
  cases call with
  | insert order task => exact keepsFinished_insert
  | updateStatus taskId status =>
    simp only [Call.exec, A2aTaskStore.updateStatus, keepsFinished_modify, hstatus, Respects]
  | complete taskId response artifacts =>
    refine keepsFinished_modify.trans (forall₂_congr fun old _ => ?_)
    cases old
    simp
  | fail taskId errorMessage =>
    refine keepsFinished_modify.trans (forall₂_congr fun old _ => ?_)
    cases old
    simp
  | cancel taskId =>
    simp only [Call.exec, A2aTaskStore.cancel, A2aTaskStore.updateStatus, keepsFinished_modify,
      hstatus, Respects]

/-- **A finished task stays as it is** in a run exactly if no call writes over one. -/
theorem finished_stay_iff (maxTasks : ℕ) (calls : List (Call μ α)) :
    Steps step KeepsFinished (.new maxTasks) calls ↔
      Guarded step Respects (.new maxTasks) calls := by
  apply @steps_iff_guarded _ _ step _ fun _ => True
  · exact fun _ _ _ _ _ _ => trivial
  · intro s call _
    simp only [step, some.injEq, exists_eq_left', keepsFinished_exec]
  · trivial

/-- A task that is cancelled while the agent works on it. -/
theorem cancelled_then_completed :
    (run (@step String String) (.new 1000)
      [.insert (.stored _) ⟨"t1", .working, ["translate"], []⟩, .cancel "t1",
        .complete "t1" "done" []]).map (fun s => (s.task? "t1").map A2aTask.status) =
      some (some .completed) := by
  decide

def Finished (s : Tracked μ α) (id : String) : Prop :=
  ∃ task, s.task? id = some task ∧ task.status.isFinished = true

/-- An insert leaves no more tasks than allowed, and removes only the oldest finished one. -/
structure Evicts (s : Tracked μ α) (task : A2aTask μ α) (store : A2aTaskStore μ α) : Prop where
  bounded : store.tasks.size ≤ store.maxTasks
  removed : ∀ id, s.task? id ≠ none → store.tasks.lookup id = none →
    s.store.maxTasks ≤ s.store.tasks.size ∧ s.task? task.id = none ∧ Finished s id ∧
      ∀ id', Finished s id' → id' ≠ id → s.insertedAt id < s.insertedAt id'

def EvictsOldest (s : Tracked μ α) (call : Call μ α) (s' : Tracked μ α) : Prop :=
  match call with
  | .insert _ task => ∀ order, Evicts s task (s.store.insert order task)
  | _ => s'.store.tasks.size ≤ s'.store.maxTasks

/-- At capacity a new task finds exactly one that is finished, and an old one no other. -/
def HasRoom (s : Tracked μ α) : Call μ α → Prop
  | .insert _ task => s.store.tasks.size < s.store.maxTasks ∨
      (s.task? task.id = none ∧ ∃ id, ∀ id', Finished s id' ↔ id' = id) ∨
      (s.task? task.id ≠ none ∧ ∀ id, Finished s id → id = task.id)
  | _ => True

def firstly (id : String) : Order μ α where
  arrange l := (l.filter fun p => decide (p.1 = id)) ++ l.filter fun p => !decide (p.1 = id)
  perm _ := filter_append_perm _ _

variable {order : Order μ α}

theorem finished_of_evictKey (h : s.store.evictKey order = some id) : Finished s id := by
  obtain ⟨⟨_, task⟩, hfind, rfl⟩ := map_eq_some_iff.mp h
  have hmem := mem_of_find?_eq_some hfind
  rw [IterOrder.mem_arrange, Table.mem_pairs] at hmem
  have hfinished := List.find?_some hfind
  exact ⟨task, hmem, hfinished⟩

theorem Finished.evictKey_ne_none (h : Finished s id) (order : Order μ α) :
    s.store.evictKey order ≠ none := by
  obtain ⟨task, htask, hfinished⟩ := h
  rw [A2aTaskStore.evictKey, Ne, map_eq_none_iff, List.find?_eq_none]
  exact fun hnone => hnone (id, task) (by simpa [Table.mem_pairs]) hfinished

theorem evictKey_firstly (h : Finished s id) : s.store.evictKey (firstly id) = some id := by
  obtain ⟨task, htask, hfinished⟩ := h
  have hfind : ((s.store.tasks.pairs.filter fun p => decide (p.1 = id)).find?
      fun p => p.2.status.isFinished).isSome = true :=
    List.find?_isSome.mpr ⟨(id, task), by simpa [Table.mem_pairs], hfinished⟩
  obtain ⟨p, hp⟩ := isSome_iff_exists.mp hfind
  have hid := of_decide_eq_true (mem_filter.mp (mem_of_find?_eq_some hp)).2
  simp [A2aTaskStore.evictKey, firstly, hp, hid]

theorem size_of_evictKey (h : s.store.evictKey order = some id) (task : A2aTask μ α) :
    (s.store.insert order task).tasks.size ≤ max s.store.tasks.size s.store.maxTasks := by
  obtain ⟨old, hold, -⟩ := finished_of_evictKey h
  have herase : s.store.tasks.size = 1 + Table.size (s.store.tasks.erase id) :=
    Table.total_erase hold
  simp only [A2aTaskStore.insert, h, Table.size_insert]
  split_ifs <;> omega

theorem evicts_iff (hbounded : s.store.tasks.size ≤ s.store.maxTasks) (order : Order μ α) :
    (∀ order, Evicts s task (s.store.insert order task)) ↔ HasRoom s (.insert order task) := by
  have hremoved (order : Order μ α) (id : String) (hid : s.task? id ≠ none) :
      (s.store.insert order task).tasks.lookup id = none ↔ id ≠ task.id ∧
        s.store.maxTasks ≤ s.store.tasks.size ∧ s.store.evictKey order = some id := by
    rw [A2aTaskStore.lookup_insert]
    split_ifs with hnew hevict
    · simp [hnew]
    · simp [hnew, hevict]
    · exact iff_of_false hid fun hevict' => hevict hevict'.2
  constructor
  · intro hall
    rcases Nat.lt_or_ge s.store.tasks.size s.store.maxTasks with hlt | hfull
    · exact .inl hlt
    -- every finished task is evicted in some order
    have hevicts {id : String} (hid : Finished s id) (hne : id ≠ task.id) :
        s.task? task.id = none ∧
          ∀ id', Finished s id' → id' ≠ id → s.insertedAt id < s.insertedAt id' := by
      have hstored : s.task? id ≠ none := by
        obtain ⟨old, hold, -⟩ := hid
        simp [hold]
      obtain ⟨-, hnew, -, hfirst⟩ := (hall (firstly id)).removed id hstored
        ((hremoved _ id hstored).mpr ⟨hne, hfull, evictKey_firstly hid⟩)
      exact ⟨hnew, hfirst⟩
    by_cases hnew : s.task? task.id = none
    · have hne {id : String} (hid : Finished s id) : id ≠ task.id := by
        rintro rfl
        obtain ⟨old, hold, -⟩ := hid
        cases hnew.symm.trans hold
      cases hkey : s.store.evictKey order with
      | none =>
        have hsize := (hall order).bounded
        rw [Tracked.task?] at hnew
        simp [A2aTaskStore.insert, hkey, Table.size_insert, hnew] at hsize
        omega
      | some id =>
        have hid := finished_of_evictKey hkey
        refine .inr (.inl ⟨hnew, id, fun id' => ⟨fun hid' => by_contra fun hother => ?_, ?_⟩⟩)
        · have hlt := (hevicts hid (hne hid)).2 id' hid' hother
          have hgt := (hevicts hid' (hne hid')).2 id hid (Ne.symm hother)
          omega
        · exact fun heq => heq ▸ hid
    · exact .inr (.inr ⟨hnew, fun id hid => by_contra fun hne => hnew (hevicts hid hne).1⟩)
  · refine fun hroom order => ⟨?_, fun id hid hnone => ?_⟩
    · cases hkey : s.store.evictKey order with
      | some id => exact (size_of_evictKey hkey task).trans (max_le hbounded le_rfl)
      | none =>
        simp only [A2aTaskStore.insert, hkey, ite_self, Table.size_insert]
        rcases hroom with hlt | ⟨-, id, huniq⟩ | ⟨hold, -⟩
        · split_ifs <;> omega
        · exact absurd hkey (((huniq id).mpr rfl).evictKey_ne_none order)
        · exact (if_pos (isSome_iff_ne_none.mpr hold)).trans_le hbounded
    · obtain ⟨hne, hfull, hkey⟩ := (hremoved order id hid).mp hnone
      have hfinished := finished_of_evictKey hkey
      rcases hroom with hlt | ⟨hnew, id', huniq⟩ | ⟨-, hother⟩
      · omega
      · obtain rfl := (huniq id).mp hfinished
        exact ⟨hfull, hnew, hfinished, fun id' hid' hne' => absurd ((huniq id').mp hid') hne'⟩
      · exact absurd (hother id hfinished) hne

theorem evictsOldest_exec (hbounded : s.store.tasks.size ≤ s.store.maxTasks) (call : Call μ α) :
    (EvictsOldest s call (call.exec s) ↔ HasRoom s call) ∧
      (EvictsOldest s call (call.exec s) →
        (call.exec s).store.tasks.size ≤ (call.exec s).store.maxTasks) := by
  have hmodify (taskId : String) (f : A2aTask μ α → A2aTask μ α) :
      (s.store.modify taskId f).tasks.size ≤ (s.store.modify taskId f).maxTasks := by
    rw [A2aTaskStore.size_modify, A2aTaskStore.modify]
    split <;> exact hbounded
  cases call with
  | insert order task => exact ⟨evicts_iff hbounded order, fun hall => (hall order).bounded⟩
  | _ => exact ⟨iff_of_true (hmodify _ _) trivial, id⟩

/-- **The oldest finished task is evicted**, in a run exactly if every insert finds room. -/
theorem evicts_oldest_iff (maxTasks : ℕ) (calls : List (Call μ α)) :
    Steps step EvictsOldest (.new maxTasks) calls ↔ Guarded step HasRoom (.new maxTasks) calls := by
  apply @steps_iff_guarded _ _ step _ fun s => s.store.tasks.size ≤ s.store.maxTasks
  · rintro s call s' hbounded ⟨⟩ hcall
    exact (evictsOldest_exec hbounded call).2 hcall
  · intro s call hbounded
    simp only [step, some.injEq, exists_eq_left', (evictsOldest_exec hbounded call).1]
  · exact Nat.zero_le _

/-- A store for one task gets a second one while the first is running. -/
theorem store_overflows :
    ((run (@step String String) (.new 1) [.insert (.stored _) ⟨"t1", .working, [], []⟩,
      .insert (.stored _) ⟨"t2", .working, [], []⟩]).map fun s => s.store.tasks.size) = some 2 := by
  decide

end A2aTasks

end AlloyAgent
