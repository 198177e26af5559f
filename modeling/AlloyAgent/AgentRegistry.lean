import AlloyAgent.HashTable
import AlloyAgent.Interleaving
import AlloyAgent.NameClaims

/-!
# The registry of agents

The registry keeps the agents by id, and an index from names to ids.

* `advance`, `stepRegistry`: the accesses to the maps, interleaved;
* `claims_step`: they are steps of `NameClaims`, if only free names are taken;
* `names_unique`: then no two agents have the same name.
-/

namespace AlloyAgent.Registry

open Transition Interleaving

abbrev AgentId := String

/-- An agent: its name also stands in its manifest. -/
structure AgentEntry where
  id : AgentId
  name : String
  manifestName : String
  tags : List String
  deriving DecidableEq

inductive OpenFangError where
  | agentAlreadyExists (name : String)
  | agentNotFound (id : String)
  deriving DecidableEq

/-- Registry of all agents in the kernel. -/
structure AgentRegistry where
  agents : Table AgentId AgentEntry
  nameIndex : Table String AgentId
  tagIndex : Table String (List AgentId)

def AgentRegistry.new : AgentRegistry := ⟨∅, ∅, ∅⟩

def AgentRegistry.findByName (r : AgentRegistry) (name : String) : Option AgentEntry :=
  (r.nameIndex.lookup name).bind fun id => r.agents.lookup id

/-- `ids.retain(|&agent_id| agent_id != id)`, if there is an entry for the tag. -/
def retainOthers (t : Table String (List AgentId)) (tag : String) (id : AgentId) :
    Table String (List AgentId) :=
  match t.lookup tag with
  | none => t
  | some ids => t.insert tag (ids.filter fun agentId => agentId ≠ id)

inductive Op where
  | register (entry : AgentEntry)
  | updateName (id : AgentId) (newName : String)
  | remove (id : AgentId)
  deriving DecidableEq

/-- What is left to do of a call, up to what it returns. -/
inductive Call where
  | register (entry : AgentEntry)
  | registerName (entry : AgentEntry)
  | registerTags (entry : AgentEntry) (tags : List String)
  | updateName (id : AgentId) (newName : String)
  | updateEntry (id : AgentId) (newName : String)
  | updateUnindex (id : AgentId) (newName oldName : String)
  | updateIndex (id : AgentId) (newName : String)
  | remove (id : AgentId)
  | removeName (id : AgentId) (entry : AgentEntry)
  | removeTags (id : AgentId) (entry : AgentEntry) (tags : List String)
  | returned (result : Except OpenFangError (Option AgentEntry))
  deriving DecidableEq

def Op.start : Op → Call
  | .register entry => .register entry
  | .updateName id newName => .updateName id newName
  | .remove id => .remove id

/-- One access to one of the maps. -/
def advance (r : AgentRegistry) : Call → Option (AgentRegistry × Call)
  -- register
  | .register entry =>
    if (r.nameIndex.lookup entry.name).isSome then
      some (r, .returned (.error (.agentAlreadyExists entry.name)))
    else some (r, .registerName entry)
  | .registerName entry =>
    some ({ r with nameIndex := r.nameIndex.insert entry.name entry.id },
      .registerTags entry entry.tags)
  | .registerTags entry (tag :: tags) =>
    some ({ r with tagIndex := r.tagIndex.push tag entry.id }, .registerTags entry tags)
  | .registerTags entry [] =>
    some ({ r with agents := r.agents.insert entry.id entry }, .returned (.ok none))
  -- update_name
  | .updateName id newName =>
    if (r.nameIndex.lookup newName).isSome then
      some (r, .returned (.error (.agentAlreadyExists newName)))
    else some (r, .updateEntry id newName)
  | .updateEntry id newName =>
    match r.agents.lookup id with
    | none => some (r, .returned (.error (.agentNotFound id)))
    | some entry =>
      some ({ r with
          agents := r.agents.insert id { entry with name := newName, manifestName := newName } },
        .updateUnindex id newName entry.name)
  | .updateUnindex id newName oldName =>
    some ({ r with nameIndex := r.nameIndex.erase oldName }, .updateIndex id newName)
  | .updateIndex id newName =>
    some ({ r with nameIndex := r.nameIndex.insert newName id }, .returned (.ok none))
  -- remove
  | .remove id =>
    match r.agents.lookup id with
    | none => some (r, .returned (.error (.agentNotFound id)))
    | some entry => some ({ r with agents := r.agents.erase id }, .removeName id entry)
  | .removeName id entry =>
    some ({ r with nameIndex := r.nameIndex.erase entry.name }, .removeTags id entry entry.tags)
  | .removeTags id entry (tag :: tags) =>
    some ({ r with tagIndex := retainOthers r.tagIndex tag id }, .removeTags id entry tags)
  | .removeTags _ entry [] => some (r, .returned (.ok (some entry)))
  | .returned _ => none

abbrev System := State AgentRegistry Call

def System.new : System := ⟨.new, []⟩

abbrev stepRegistry : System → Event Op → Option System := step Op.start advance

def Call.isReturned : Call → Bool
  | .returned _ => true
  | _ => false

def System.Idle (s : System) : Prop := ∀ call ∈ s.calls, call.isReturned

instance (s : System) : Decidable s.Idle :=
  inferInstanceAs (Decidable (∀ call ∈ s.calls, call.isReturned))

/-! ## Who holds a name -/

def Call.held : Call → Option (String × AgentId)
  | .registerTags entry _ => some (entry.name, entry.id)
  | .updateUnindex id _ oldName => some (oldName, id)
  | .removeName id entry => some (entry.name, id)
  | _ => none

/-- The name under which a call is going to index an agent that has been renamed. -/
def Call.renames : Call → Option (String × AgentId)
  | .updateUnindex id newName _ => some (newName, id)
  | .updateIndex id newName => some (newName, id)
  | _ => none

theorem renames_of_isReturned {call : Call} (h : call.isReturned) : call.renames = none := by
  cases call with
  | returned result => rfl
  | _ => cases h

/-- Those who hold names. -/
inductive Holder where
  | agent (id : AgentId)
  | call (i : ℕ)
  deriving DecidableEq

def System.holds (s : System) (name : String) (id : AgentId) : Holder → Prop
  | .agent a => a = id ∧ ∃ entry, s.shared.agents.lookup a = some entry ∧ entry.name = name
  | .call i => ∃ call, s.calls[i]? = some call ∧ call.held = some (name, id)

def System.claims (s : System) : Claims String AgentId Holder where
  holds := s.holds
  index name := s.shared.nameIndex.lookup name
  coming name id := ∃ call ∈ s.calls, call.renames = some (name, id)

/-- Only a free name is taken: it is not in the index, and no other call is going to index it. -/
def TakesFree (s : System) : Event Op → Prop
  | .invoke _ => True
  | .step i =>
    match s.calls[i]? with
    | some (.registerName entry) => s.claims.Free entry.name
    | some (.updateEntry id newName) => (s.shared.agents.lookup id).isSome → s.claims.Free newName
    | _ => True

/-! ## Steps of calls are steps of names -/

section Steps

variable {r r' : AgentRegistry} {calls : List Call} {i : ℕ} {call call' : Call} {n : String}
  {a : AgentId}

section

variable (hcall : calls[i]? = some call)
include hcall

theorem coming_set :
    (System.claims ⟨r', calls.set i call'⟩).coming n a ↔
      call'.renames = some (n, a) ∨
        ∃ j, j ≠ i ∧ ∃ c, calls[j]? = some c ∧ c.renames = some (n, a) :=
  exists_mem_set hcall call' fun c => c.renames = some (n, a)

theorem coming_iff :
    (System.claims ⟨r, calls⟩).coming n a ↔
      call.renames = some (n, a) ∨
        ∃ j, j ≠ i ∧ ∃ c, calls[j]? = some c ∧ c.renames = some (n, a) :=
  exists_mem_iff hcall fun c => c.renames = some (n, a)

theorem coming_set_of_eq (h : call'.renames = call.renames) :
    (System.claims ⟨r', calls.set i call'⟩).coming = (System.claims ⟨r, calls⟩).coming := by
  funext n a
  rw [coming_set hcall, coming_iff hcall, h]

theorem holds_call_cases (h : (System.claims ⟨r', calls.set i call'⟩).holds n a (.call j)) :
    (j = i ∧ call'.held = some (n, a)) ∨
      (j ≠ i ∧ (System.claims ⟨r, calls⟩).holds n a (.call j)) := by
  obtain ⟨c, hc, hheld⟩ := h
  rcases (getElem?_set_eq_some hcall call' j c).mp hc with ⟨rfl, rfl⟩ | ⟨hj, hc⟩
  · exact .inl ⟨rfl, hheld⟩
  · exact .inr ⟨hj, c, hc, hheld⟩

theorem claims_silent (hagents : r'.agents = r.agents) (hindex : r'.nameIndex = r.nameIndex)
    (hheld : call'.held = call.held) (hrenames : call'.renames = call.renames) :
    Claims.Step (System.claims ⟨r, calls⟩) (System.claims ⟨r', calls.set i call'⟩) := by
  refine .pass id ?_ ?_ (coming_set_of_eq hcall hrenames)
  · rintro n a (b | j) h
    · refine ⟨.agent b, ?_, rfl⟩
      simpa only [System.claims, System.holds, hagents] using h
    · refine ⟨.call j, ?_, rfl⟩
      rcases holds_call_cases hcall h with ⟨rfl, hnew⟩ | ⟨-, hold⟩
      · exact ⟨call, hcall, hheld ▸ hnew⟩
      · exact hold
  · simp only [System.claims, hindex]

end

variable {entry : AgentEntry}

theorem claims_registerName (hcall : calls[i]? = some (.registerName entry))
    (hfree : (System.claims ⟨r, calls⟩).Free entry.name) :
    Claims.Step (System.claims ⟨r, calls⟩)
      (System.claims ⟨{ r with nameIndex := r.nameIndex.insert entry.name entry.id },
        calls.set i (.registerTags entry entry.tags)⟩) := by
  refine .claim entry.name entry.id (.call i) hfree ?_ (Table.lookup_insert_eq_update ..)
    (coming_set_of_eq hcall rfl)
  rintro n a (b | j) h
  · exact .inl h
  · rcases holds_call_cases hcall h with ⟨rfl, hnew⟩ | ⟨-, hold⟩
    · cases hnew
      exact .inr ⟨rfl, rfl, rfl⟩
    · exact .inl hold

theorem claims_store (hcall : calls[i]? = some (.registerTags entry []))
    (result : Except OpenFangError (Option AgentEntry)) :
    Claims.Step (System.claims ⟨r, calls⟩)
      (System.claims ⟨{ r with agents := r.agents.insert entry.id entry },
        calls.set i (.returned result)⟩) := by
  refine .pass (fun h => if h = .call i then .agent entry.id else h) ?_ rfl
    (coming_set_of_eq hcall rfl)
  rintro n a (b | j) h
  · obtain ⟨rfl, stored, hstored, rfl⟩ := h
    rw [Table.lookup_insert_eq] at hstored
    split_ifs at hstored with hb
    · cases hstored
      exact ⟨.call i, ⟨_, hcall, hb ▸ rfl⟩, hb ▸ if_pos rfl⟩
    · exact ⟨.agent b, ⟨rfl, stored, hstored, rfl⟩, if_neg (by simp)⟩
  · rcases holds_call_cases hcall h with ⟨-, hnew⟩ | ⟨hj, hold⟩
    · cases hnew
    · exact ⟨.call j, hold, if_neg (by simpa using hj)⟩

variable {id : AgentId}

theorem claims_updateEntry (hcall : calls[i]? = some (.updateEntry id newName))
    (hentry : r.agents.lookup id = some entry) (hfree : (System.claims ⟨r, calls⟩).Free newName) :
    Claims.Step (System.claims ⟨r, calls⟩)
      (System.claims
        ⟨{ r with
            agents := r.agents.insert id { entry with name := newName, manifestName := newName } },
          calls.set i (.updateUnindex id newName entry.name)⟩) := by
  refine .rename entry.name newName id (.agent id) (.call i) ⟨rfl, entry, hentry, rfl⟩ hfree ?_ rfl
    ?_
  · rintro n a (b | j) h
    · obtain ⟨rfl, stored, hstored, rfl⟩ := h
      rw [Table.lookup_insert_eq] at hstored
      split_ifs at hstored with hb
      · cases hstored
        exact .inl ⟨rfl, hb, hb ▸ rfl⟩
      · exact .inr (.inr ⟨⟨rfl, stored, hstored, rfl⟩, by simpa using hb⟩)
    · rcases holds_call_cases hcall h with ⟨rfl, hnew⟩ | ⟨-, hold⟩
      · cases hnew
        exact .inr (.inl ⟨rfl, rfl, rfl⟩)
      · exact .inr (.inr ⟨hold, by simp⟩)
  · intro n a
    rw [coming_set hcall, coming_iff hcall]
    simp only [Call.renames, reduceCtorEq, false_or, Option.some.injEq, Prod.mk.injEq]
    rw [or_comm, @eq_comm _ newName, @eq_comm _ id]

theorem claims_unindex (hcall : calls[i]? = some call) (hheld : call.held = some (n, a))
    (hgone : call'.held = none) (hrenames : call'.renames = call.renames) :
    Claims.Step (System.claims ⟨r, calls⟩)
      (System.claims ⟨{ r with nameIndex := r.nameIndex.erase n }, calls.set i call'⟩) := by
  refine .release n a (.call i) ⟨call, hcall, hheld⟩ ?_ (Table.lookup_erase_eq_update ..)
    (coming_set_of_eq hcall hrenames)
  rintro m b (c | j) h
  · exact ⟨h, by simp⟩
  · rcases holds_call_cases hcall h with ⟨-, hnew⟩ | ⟨hj, hold⟩
    · rw [hgone] at hnew
      cases hnew
    · exact ⟨hold, by simpa using hj⟩

theorem claims_updateIndex (hcall : calls[i]? = some (.updateIndex id newName))
    (result : Except OpenFangError (Option AgentEntry)) :
    Claims.Step (System.claims ⟨r, calls⟩)
      (System.claims ⟨{ r with nameIndex := r.nameIndex.insert newName id },
        calls.set i (.returned result)⟩) := by
  refine .arrive newName id ((coming_iff hcall).mpr (.inl rfl)) ?_
    (Table.lookup_insert_eq_update ..) ?_ ?_
  · rintro n a (b | j) h
    · exact h
    · rcases holds_call_cases hcall h with ⟨-, hnew⟩ | ⟨-, hold⟩
      · cases hnew
      · exact hold
  · intro n a h
    rcases (coming_set hcall).mp h with hnew | hold
    · cases hnew
    · exact (coming_iff hcall).mpr (.inr hold)
  · intro n a hn h
    rcases (coming_iff hcall).mp h with hown | hother
    · cases hown
      exact absurd rfl hn
    · exact (coming_set hcall).mpr (.inr hother)

theorem claims_remove (hcall : calls[i]? = some (.remove id))
    (hentry : r.agents.lookup id = some entry) :
    Claims.Step (System.claims ⟨r, calls⟩)
      (System.claims ⟨{ r with agents := r.agents.erase id },
        calls.set i (.removeName id entry)⟩) := by
  refine .pass (fun h => if h = .agent id then .call i else h) ?_ rfl (coming_set_of_eq hcall rfl)
  rintro n a (b | j) h
  · obtain ⟨rfl, stored, hstored, rfl⟩ := h
    rw [Table.lookup_erase_eq] at hstored
    split_ifs at hstored with hb
    exact ⟨.agent b, ⟨rfl, stored, hstored, rfl⟩, if_neg (by simpa using hb)⟩
  · rcases holds_call_cases hcall h with ⟨rfl, hnew⟩ | ⟨-, hold⟩
    · cases hnew
      exact ⟨.agent id, ⟨rfl, entry, hentry, rfl⟩, if_pos rfl⟩
    · exact ⟨.call j, hold, if_neg (by simp)⟩

end Steps

theorem claims_invoke (s : System) (op : Op) :
    Claims.Step s.claims (System.claims ⟨s.shared, s.calls ++ [op.start]⟩) := by
  have hheld : op.start.held = none := by cases op <;> rfl
  have hrenames : op.start.renames = none := by cases op <;> rfl
  refine .pass id ?_ rfl ?_
  · rintro n a (b | j) h
    · exact ⟨.agent b, h, rfl⟩
    · obtain ⟨call, hcall, hname⟩ := h
      rcases getElem?_concat_eq_some.mp hcall with hold | ⟨-, rfl⟩
      · exact ⟨.call j, ⟨call, hold, hname⟩, rfl⟩
      · rw [hheld] at hname
        cases hname
  · funext n a
    simp [System.claims, or_and_right, exists_or, hrenames]

variable {s : System}

/-- **Every step of the registry is a step of the names**, if it takes a free name. -/
theorem claims_step (hfree : TakesFree s e) (hstep : stepRegistry s e = some s') :
    Claims.Step s.claims s'.claims := by
  obtain ⟨op, rfl, rfl⟩ | ⟨i, call, r', call', rfl, hcall, hadvance, rfl⟩ := step_cases hstep
  · exact claims_invoke s op
  simp only [TakesFree, hcall] at hfree
  cases call with
  | register entry | updateName id newName =>
    simp only [advance] at hadvance
    split at hadvance <;> (cases hadvance; exact claims_silent hcall rfl rfl rfl rfl)
  | registerName entry =>
    cases hadvance
    exact claims_registerName hcall hfree
  | registerTags entry tags =>
    cases tags with
    | nil => cases hadvance; exact claims_store hcall _
    | cons tag tags => cases hadvance; exact claims_silent hcall rfl rfl rfl rfl
  | updateEntry id newName =>
    simp only [advance] at hadvance
    split at hadvance
    · cases hadvance
      exact claims_silent hcall rfl rfl rfl rfl
    · rename_i entry hentry
      cases hadvance
      exact claims_updateEntry hcall hentry (hfree (by rw [hentry]; rfl))
  | updateUnindex id newName oldName =>
    cases hadvance
    exact claims_unindex hcall rfl rfl rfl
  | updateIndex id newName =>
    cases hadvance
    exact claims_updateIndex hcall _
  | remove id =>
    simp only [advance] at hadvance
    split at hadvance
    · cases hadvance
      exact claims_silent hcall rfl rfl rfl rfl
    · rename_i entry hentry
      cases hadvance
      exact claims_remove hcall hentry
  | removeName id entry =>
    cases hadvance
    exact claims_unindex hcall rfl rfl rfl
  | removeTags id entry tags =>
    cases tags <;> (cases hadvance; exact claims_silent hcall rfl rfl rfl rfl)
  | returned result => cases hadvance

theorem claims_new : System.new.claims.Sound := by
  have hnone : ∀ n a h, ¬ System.new.claims.holds n a h := by
    rintro n a (b | i)
    · rintro ⟨-, entry, hentry, -⟩
      cases hentry
    · rintro ⟨call, hcall, -⟩
      cases hcall
  exact ⟨fun hh => absurd hh (hnone _ _ _), fun hh => absurd hh (hnone _ _ _),
    fun _ hh => absurd hh (hnone _ _ _)⟩

/-- Agents have different names, and are found by their names. -/
structure AgentRegistry.NamesUnique (r : AgentRegistry) : Prop where
  unique : ∀ id id' entry entry', r.agents.lookup id = some entry →
    r.agents.lookup id' = some entry' → entry.name = entry'.name → id = id'
  found : ∀ id entry, r.agents.lookup id = some entry → r.findByName entry.name = some entry

theorem namesUnique_of_sound (hs : s.claims.Sound) (hidle : s.Idle) : s.shared.NamesUnique := by
  refine ⟨fun id id' entry entry' hentry hentry' hname => ?_, fun id entry hentry => ?_⟩
  · have hholds : s.claims.holds entry.name id (.agent id) := ⟨rfl, entry, hentry, rfl⟩
    have hholds' : s.claims.holds entry.name id' (.agent id') := ⟨rfl, entry', hentry', hname.symm⟩
    exact Holder.agent.inj (hs.unique hholds hholds')
  · have hholds : s.claims.holds entry.name id (.agent id) := ⟨rfl, entry, hentry, rfl⟩
    rcases hs.indexed hholds with hindex | ⟨call, hcall, hrenames⟩
    · have hindex : s.shared.nameIndex.lookup entry.name = some id := hindex
      rw [AgentRegistry.findByName, hindex]
      exact hentry
    · rw [renames_of_isReturned (hidle call hcall)] at hrenames
      cases hrenames

/-- **Names are unique** in every run in which only free names are taken. -/
theorem names_unique (es : List (Event Op)) (s : System)
    (hfree : Guarded stepRegistry TakesFree .new es) (hrun : run stepRegistry .new es = some s)
    (hidle : s.Idle) : s.shared.NamesUnique := by
  have hsound : s.claims.Sound :=
    @run_guarded _ _ stepRegistry TakesFree (fun s => s.claims.Sound)
      (fun _ _ _ hs hok hstep => (claims_step hok hstep).sound hs) es _ _ claims_new hfree hrun
  exact namesUnique_of_sound hsound hidle

/-! ## Two agents of one name -/

def AgentEntry.named (id : AgentId) (name : String) : AgentEntry := ⟨id, name, name, []⟩

def renamedFirst : List (Event Op) :=
  [.invoke (.register (.named "a1" "coder")), .step 0, .step 0, .step 0,
    .invoke (.updateName "a1" "reviewer"), .step 1, .step 1, .step 1, .step 1,
    .invoke (.register (.named "a2" "coder")), .step 2, .step 2, .step 2]

def bothRegister : List (Event Op) :=
  [.invoke (.register (.named "a1" "coder")), .invoke (.register (.named "a2" "coder")),
    .step 0, .step 1, .step 0, .step 1, .step 0, .step 1]

theorem free_of_none (hindex : s.shared.nameIndex.lookup n = none)
    (hcalls : (s.calls.all fun call => call.renames.isNone) = true) : s.claims.Free n := by
  refine ⟨hindex, ?_⟩
  rintro a ⟨call, hcall, hrenames⟩
  have hnone := List.all_eq_true.mp hcalls call hcall
  rw [hrenames] at hnone
  cases hnone

theorem renamedFirst_unique :
    ∃ s, run stepRegistry .new renamedFirst = some s ∧ s.Idle ∧
      s.shared.agents.lookup "a1" = some ⟨"a1", "reviewer", "reviewer", []⟩ ∧
      s.shared.agents.lookup "a2" = some (.named "a2" "coder") ∧ s.shared.NamesUnique := by
  refine ⟨_, rfl, by decide, by decide, by decide,
    names_unique renamedFirst _ ?_ rfl (by decide)⟩
  refine .cons trivial rfl <| .cons trivial rfl <| .cons (free_of_none rfl rfl) rfl <|
    .cons trivial rfl <| .cons trivial rfl <| .cons trivial rfl <|
    .cons (fun _ => free_of_none rfl rfl) rfl <| .cons trivial rfl <| .cons trivial rfl <|
    .cons trivial rfl <| .cons trivial rfl <| .cons (free_of_none rfl rfl) rfl <|
    .cons trivial rfl trivial

/-- Both agents are stored, and only one of them is found. -/
theorem registered_twice :
    ∃ s, run stepRegistry .new bothRegister = some s ∧ s.Idle ∧
      s.shared.agents.lookup "a1" = some (.named "a1" "coder") ∧
      s.shared.agents.lookup "a2" = some (.named "a2" "coder") ∧
      s.shared.findByName "coder" = some (.named "a2" "coder") ∧ ¬ s.shared.NamesUnique := by
  refine ⟨_, rfl, by decide, by decide, by decide, by decide, fun h => ?_⟩
  exact absurd (h.unique "a1" "a2" _ _ rfl rfl rfl) (by decide)

end AlloyAgent.Registry
