import AlloyAgent.AgentRegistry

/-!
# The indexes of the registry

When calls are made one after another, the indexes say exactly what is stored: `indexes_exact`.

* `ExactBut`: the indexes are exact but for one agent, and what each operation does to that;
* `Midway`: what holds between the operations of a call; `midway_advance`: one of them.
-/

namespace AlloyAgent

namespace Registry

namespace AgentRegistry

def nameOf (r : AgentRegistry) (id : AgentId) : Option String :=
  (r.agents.lookup id).map AgentEntry.name

/-- How often an agent that is stored lists a tag. -/
def tagCount (r : AgentRegistry) (id : AgentId) (tag : String) : ℕ :=
  (r.agents.lookup id).elim 0 fun entry => entry.tags.count tag

/-- The indexes say what is stored of all agents but one, and of this one a name and tags. -/
structure ExactBut (r : AgentRegistry) (id : AgentId) (name : Option String) (tags : String → ℕ) :
    Prop where
  names : ∀ n id', r.nameIndex.lookup n = some id' ↔
    (if id' = id then name else r.nameOf id') = some n
  tags : ∀ tag id', ((r.tagIndex.lookup tag).getD []).count id' =
    if id' = id then tags tag else r.tagCount id' tag

structure Exact (r : AgentRegistry) : Prop where
  names : ∀ n id, r.nameIndex.lookup n = some id ↔ r.nameOf id = some n
  tags : ∀ tag id, ((r.tagIndex.lookup tag).getD []).count id = r.tagCount id tag

theorem exact_iff (r : AgentRegistry) (id : AgentId) :
    r.Exact ↔ r.ExactBut id (r.nameOf id) (r.tagCount id) := by
  constructor
  · exact fun h => ⟨by grind [h.names], by grind [h.tags]⟩
  · exact fun h => ⟨by grind [h.names], by grind [h.tags]⟩

section

variable {r : AgentRegistry} {id : AgentId} {name : Option String} {tags : String → ℕ}

theorem exact_iff_of_lookup (h : r.agents.lookup id = stored) :
    r.Exact ↔ r.ExactBut id (stored.map AgentEntry.name) fun tag =>
      stored.elim 0 fun entry => entry.tags.count tag := by
  subst h
  exact exact_iff r id

theorem tagCount_of_lookup (h : r.agents.lookup id = some entry) :
    r.tagCount id = fun tag => entry.tags.count tag := by
  funext tag
  rw [tagCount, h]
  rfl

/-- The entry of the agent is stored, replaced or removed. -/
theorem ExactBut.setAgents (h : r.ExactBut id name tags) {agents : Table AgentId AgentEntry}
    (hother : ∀ id', id' ≠ id → agents.lookup id' = r.agents.lookup id') :
    { r with agents := agents }.ExactBut id name tags := by
  refine ⟨fun n id' => (h.names n id').trans ?_, fun tag id' => (h.tags tag id').trans ?_⟩
  · split_ifs with hid
    · rfl
    · rw [nameOf, nameOf, hother id' hid]
  · split_ifs with hid
    · rfl
    · rw [tagCount, tagCount, hother id' hid]

theorem ExactBut.insertName (h : r.ExactBut id none tags) (hfree : r.nameIndex.lookup n = none) :
    { r with nameIndex := r.nameIndex.insert n id }.ExactBut id (some n) tags := by
  refine ⟨fun m id' => ?_, h.tags⟩
  have hn := h.names n id'
  have hm := h.names m id'
  grind [nameOf, Table.lookup_insert_eq]

theorem ExactBut.eraseName (h : r.ExactBut id (some n) tags) :
    { r with nameIndex := r.nameIndex.erase n }.ExactBut id none tags := by
  refine ⟨fun m id' => ?_, h.tags⟩
  have hn := h.names n id
  have hm := h.names m id'
  grind [nameOf, Table.lookup_erase_eq]

theorem ExactBut.pushTag (h : r.ExactBut id name fun tag => done.count tag) (tag : String) :
    { r with tagIndex := r.tagIndex.push tag id }.ExactBut id name
      fun tag' => (done ++ [tag]).count tag' := by
  refine ⟨h.names, fun tag' id' => ?_⟩
  have htags := h.tags tag' id'
  simp only [Table.push, Table.lookup_insert_eq]
  grind [tagCount]

theorem ExactBut.dropTag (h : r.ExactBut id name tags) (tag : String) :
    { r with tagIndex := retainOthers r.tagIndex tag id }.ExactBut id name
      fun tag' => if tag' = tag then 0 else tags tag' := by
  refine ⟨h.names, fun tag' id' => ?_⟩
  have htags := h.tags tag' id'
  have hcount (ids : List AgentId) :
      (ids.filter fun a => a ≠ id).count id' = if id' = id then 0 else ids.count id' := by
    grind [List.count_filter, List.count_eq_zero]
  simp only [retainOthers]
  split <;> grind [Table.lookup_insert_eq, tagCount]

end

end AgentRegistry

open AgentRegistry

/-- What the indexes say in the middle of a call. -/
def Midway (r : AgentRegistry) : Call → Prop
  | .register entry => r.Exact ∧ r.agents.lookup entry.id = none
  | .registerName entry =>
    r.Exact ∧ r.agents.lookup entry.id = none ∧ r.nameIndex.lookup entry.name = none
  | .registerTags entry rest => ∃ done, entry.tags = done ++ rest ∧
    r.ExactBut entry.id (some entry.name) fun tag => done.count tag
  | .updateEntry _ newName => r.Exact ∧ r.nameIndex.lookup newName = none
  | .updateUnindex id newName oldName => r.ExactBut id (some oldName) (r.tagCount id) ∧
    r.nameIndex.lookup newName = none ∧ r.nameOf id = some newName
  | .updateIndex id newName => r.ExactBut id none (r.tagCount id) ∧
    r.nameIndex.lookup newName = none ∧ r.nameOf id = some newName
  | .removeName id entry => r.agents.lookup id = none ∧
    r.ExactBut id (some entry.name) fun tag => entry.tags.count tag
  | .removeTags id _ rest => r.agents.lookup id = none ∧
    ∃ left, (∀ tag, tag ∉ rest → left tag = 0) ∧ r.ExactBut id none left
  | .updateName _ _ | .remove _ | .returned _ => r.Exact

variable {r r' : AgentRegistry} {call : Call}

theorem midway_advance (h : Midway r call) (hadvance : advance r call = some (r', call')) :
    Midway r' call' := by
  cases call with
  | register entry =>
    obtain ⟨hexact, hnew⟩ := h
    simp only [advance] at hadvance
    split at hadvance <;> cases hadvance
    · exact hexact
    · exact ⟨hexact, hnew, by simp_all⟩
  | registerName entry =>
    obtain ⟨hexact, hnew, hfree⟩ := h
    cases hadvance
    exact ⟨[], rfl, ((exact_iff_of_lookup hnew).mp hexact).insertName hfree⟩
  | registerTags entry rest =>
    obtain ⟨done, hdone, hbut⟩ := h
    cases rest with
    | nil =>
      cases hadvance
      rw [List.append_nil] at hdone
      subst hdone
      refine (exact_iff_of_lookup (AList.lookup_insert _)).mpr ?_
      exact hbut.setAgents fun _ hne => AList.lookup_insert_ne hne
    | cons tag rest =>
      cases hadvance
      exact ⟨done ++ [tag], by simp [hdone], hbut.pushTag tag⟩
  | updateName id newName =>
    simp only [advance] at hadvance
    split at hadvance <;> cases hadvance
    · exact h
    · exact ⟨h, by simp_all⟩
  | updateEntry id newName =>
    obtain ⟨hexact, hfree⟩ := h
    simp only [advance] at hadvance
    split at hadvance <;> cases hadvance
    · exact hexact
    · rename_i entry hentry
      refine ⟨?_, hfree, by simp [nameOf]⟩
      rw [tagCount_of_lookup (AList.lookup_insert _)]
      refine ((exact_iff_of_lookup hentry).mp hexact).setAgents ?_
      exact fun _ hne => AList.lookup_insert_ne hne
  | updateUnindex id newName oldName =>
    obtain ⟨hbut, hfree, hname⟩ := h
    cases hadvance
    exact ⟨hbut.eraseName, by grind [Table.lookup_erase_eq], hname⟩
  | updateIndex id newName =>
    obtain ⟨hbut, hfree, hname⟩ := h
    cases hadvance
    exact (exact_iff _ id).mpr (hname ▸ hbut.insertName hfree)
  | remove id =>
    simp only [advance] at hadvance
    split at hadvance <;> cases hadvance
    · exact h
    · rename_i entry hentry
      refine ⟨AList.lookup_erase _ _, ((exact_iff_of_lookup hentry).mp h).setAgents ?_⟩
      exact fun _ hne => AList.lookup_erase_ne hne
  | removeName id entry =>
    obtain ⟨hgone, hbut⟩ := h
    cases hadvance
    exact ⟨hgone, _, fun tag htag => List.count_eq_zero.mpr htag, hbut.eraseName⟩
  | removeTags id entry rest =>
    obtain ⟨hgone, left, hleft, hbut⟩ := h
    cases rest with
    | nil =>
      cases hadvance
      obtain rfl : left = fun _ => 0 := funext fun tag => hleft tag List.not_mem_nil
      exact (exact_iff_of_lookup hgone).mpr hbut
    | cons tag rest =>
      cases hadvance
      exact ⟨hgone, _, by grind, hbut.dropTag tag⟩
  | returned result => cases hadvance

/-- One step of a call while no other call takes one. -/
def Next (a b : AgentRegistry × Call) : Prop := advance a.1 a.2 = some b

/-- The registries that calls reach one after another; other updates keep name and tags. -/
inductive Reached : AgentRegistry → Prop
  | new : Reached .new
  | call {r r' : AgentRegistry} {op : Op} {result} (h : Reached r)
      (hfresh : ∀ entry, op = .register entry → r.agents.lookup entry.id = none)
      (hcall : Relation.ReflTransGen Next (r, op.start) (r', .returned result)) : Reached r'
  | update {r : AgentRegistry} {id entry entry'} (h : Reached r)
      (hentry : r.agents.lookup id = some entry) (hname : entry'.name = entry.name)
      (htags : entry'.tags = entry.tags) :
      Reached { r with agents := r.agents.insert id entry' }

theorem midway_call (h : Relation.ReflTransGen Next a b) (ha : Midway a.1 a.2) :
    Midway b.1 b.2 := by
  induction h with
  | refl => exact ha
  | tail _ hstep ih => exact midway_advance ih hstep

/-- **The indexes are exact** after any calls that are made one after another. -/
theorem indexes_exact (hr : Reached r) : r.Exact := by
  induction hr with
  | new => exact ⟨by simp [AgentRegistry.new, nameOf], by simp [AgentRegistry.new, tagCount]⟩
  | @call r r' op result _ hfresh hcall hexact =>
    have hstart : Midway r op.start := by
      cases op with
      | register entry => exact ⟨hexact, hfresh entry rfl⟩
      | _ => exact hexact
    exact midway_call hcall hstart
  | @update r id entry entry' _ hentry hname htags hexact =>
    have hbut := (exact_iff_of_lookup hentry).mp hexact
    dsimp only [Option.map_some, Option.elim_some] at hbut
    rw [← hname, ← htags] at hbut
    refine (exact_iff_of_lookup (AList.lookup_insert _)).mpr ?_
    exact hbut.setAgents fun _ hne => AList.lookup_insert_ne hne

/-- An agent that lists a tag twice is registered. -/
theorem registered_exact :
    ∃ r : AgentRegistry, Reached r ∧ r.tagIndex.lookup "go" = some ["a1", "a1"] ∧ r.Exact := by
  have hr := @Reached.call .new _ (.register ⟨"a1", "coder", "coder", ["go", "go"]⟩) _ .new
    (fun _ _ => rfl) (.head rfl <| .head rfl <| .head rfl <| .head rfl <| .head rfl .refl)
  exact ⟨_, hr, rfl, indexes_exact hr⟩

end Registry
end AlloyAgent
