import Mathlib.Data.List.ReduceOption
import AlloyAgent.HashTable
import AlloyAgent.Message

/-!
# The structured store

`openfang-memory/src/structured.rs` keeps the values and the agents of OpenFang in SQLite.

* `get_latest`: a value is read as it was written last;
* `kv_map_iff`: when all that is read, the list too, is that of a map;
* `agents_survive_iff`: the agents that are loaded as they were saved.
-/

namespace AlloyAgent.StructuredStore

open List

inductive OpenFangError where
  | memory (e : String)
  | serialization (e : String)

inductive Value where
  | text (s : String)
  | blob (bytes : List UInt8)

structure Serde where
  toVec : Json → List UInt8
  fromSlice : List UInt8 → Except String Json
  fromStr : String → Except String Json

/-- The column `value` of the table `kv_store`, whose primary key is the agent and the key. -/
abbrev KvStore := Table (String × String) Value

variable (serde : Serde)

def invalidColumnType (type : String) (index : ℕ) : OpenFangError :=
  .memory s!"Invalid column type {type} at index: {index}, name: value"

def get (store : KvStore) (agentId key : String) : Except OpenFangError (Option Json) :=
  match store.lookup (agentId, key) with
  | none => .ok none
  | some (.text _) => .error (invalidColumnType "Text" 0)
  | some (.blob bytes) =>
    match serde.fromSlice bytes with
    | .ok value => .ok (some value)
    | .error e => .error (.serialization e)

def set (store : KvStore) (agentId key : String) (value : Json) : KvStore :=
  store.insert (agentId, key) (.blob (serde.toVec value))

def delete (store : KvStore) (agentId key : String) : KvStore := store.erase (agentId, key)

/-- A row of the query of `list_kv`. -/
def readPair (row : (String × String) × Value) : Except OpenFangError (String × Json) :=
  match row.2 with
  | .blob _ => .error (invalidColumnType "Blob" 1)
  | .text s =>
    match serde.fromStr s with
    | .ok value => .ok (row.1.2, value)
    | .error _ => .ok (row.1.2, .string s)

/-- List all key-value pairs for an agent. -/
def listKv (store : KvStore) (agentId : String) : Except OpenFangError (List (String × Json)) :=
  ((store.pairs.filter (·.1.1 = agentId)).insertionSort (·.1.2 ≤ ·.1.2)).mapM (readPair serde)

inductive Call where
  | set (agentId key : String) (value : Json)
  | delete (agentId key : String)

def Call.run (store : KvStore) : Call → KvStore
  | .set agentId key value => StructuredStore.set serde store agentId key value
  | .delete agentId key => StructuredStore.delete store agentId key

/-- The map that the store is to be. -/
def Call.update (m : String × String → Option Json) : Call → String × String → Option Json
  | .set agentId key value => Function.update m (agentId, key) (some value)
  | .delete agentId key => Function.update m (agentId, key) none

/-- The value last set and not since deleted. -/
def latest (calls : List Call) : String × String → Option Json :=
  calls.foldl Call.update fun _ => none

theorem lookup_run (calls : List Call) {store : KvStore} {m : String × String → Option Json}
    (h : (fun p => store.lookup p) = Option.map (fun v => .blob (serde.toVec v)) ∘ m) :
    (fun p => (calls.foldl (Call.run serde) store).lookup p) =
      Option.map (fun v => .blob (serde.toVec v)) ∘ calls.foldl Call.update m := by
  induction calls generalizing store m with
  | nil => exact h
  | cons call calls ih =>
    refine ih ?_
    cases call with
    | set agentId key value =>
      rw [Call.run, StructuredStore.set, Table.lookup_insert_eq_update, h, Call.update,
        Function.comp_update]
      rfl
    | delete agentId key =>
      rw [Call.run, StructuredStore.delete, Table.lookup_erase_eq_update, h, Call.update,
        Function.comp_update]
      rfl

theorem lookup_calls (calls : List Call) (agentId key : String) :
    (calls.foldl (Call.run serde) ∅).lookup (agentId, key) =
      (latest calls (agentId, key)).map fun v => .blob (serde.toVec v) :=
  congrFun (lookup_run serde calls rfl) (agentId, key)

/-- **Reading is right** after all calls, with a decoder that reads what the encoder wrote. -/
theorem get_latest (hserde : ∀ v, serde.fromSlice (serde.toVec v) = .ok v) (calls : List Call)
    (agentId key : String) :
    get serde (calls.foldl (Call.run serde) ∅) agentId key = .ok (latest calls (agentId, key)) := by
  rw [get, lookup_calls]
  cases latest calls (agentId, key) with
  | none => rfl
  | some value => simp only [Option.map_some, hserde]

theorem exists_ok_of_mapM {f : α → Except ε β} {l : List α} (h : l.mapM f = .ok l') (ha : a ∈ l) :
    ∃ b, f a = .ok b := by
  induction l generalizing l' with
  | nil => cases ha
  | cons c l ih =>
    rw [mapM_cons] at h
    cases hc : f c with
    | error e =>
      rw [hc] at h
      cases h
    | ok b =>
      rw [hc] at h
      cases hl : l.mapM f with
      | error e =>
        rw [hl] at h
        cases h
      | ok l' =>
        rcases mem_cons.mp ha with rfl | ha
        · exact ⟨b, hc⟩
        · exact ih hl ha

/-- **When the store is a map for an agent**: the agent has no value at all, because of the list.
What is read is right. -/
theorem kv_map_iff (calls : List Call) (agentId : String) :
    ((∀ v, serde.fromSlice (serde.toVec v) = .ok v) →
      ∀ key, get serde (calls.foldl (Call.run serde) ∅) agentId key =
        .ok (latest calls (agentId, key))) ∧
    (((∀ key, get serde (calls.foldl (Call.run serde) ∅) agentId key =
          .ok (latest calls (agentId, key))) ∧
        ∃ pairs, listKv serde (calls.foldl (Call.run serde) ∅) agentId = .ok pairs ∧
          pairs.Pairwise (fun p q => p.1 < q.1) ∧
          ∀ key value, (key, value) ∈ pairs ↔ latest calls (agentId, key) = some value) ↔
      ∀ key, latest calls (agentId, key) = none) := by
  refine ⟨fun hserde => get_latest serde hserde calls agentId, ?_, ?_⟩
  · rintro ⟨-, pairs, hlist, -⟩ key
    rw [Option.eq_none_iff_forall_ne_some]
    intro value hvalue
    have hrow := lookup_calls serde calls agentId key
    rw [hvalue, Option.map_some, ← Table.mem_pairs] at hrow
    obtain ⟨_, hread⟩ := exists_ok_of_mapM hlist
      ((mem_insertionSort _).mpr (mem_filter.mpr ⟨hrow, decide_eq_true rfl⟩))
    cases hread
  · intro hnone
    have hempty : (calls.foldl (Call.run serde) ∅).pairs.filter (·.1.1 = agentId) = [] := by
      refine filter_eq_nil_iff.mpr ?_
      rintro ⟨⟨agentId', key⟩, value⟩ hmem hagent
      obtain rfl := of_decide_eq_true hagent
      rw [Table.mem_pairs, lookup_calls, hnone] at hmem
      cases hmem
    refine ⟨fun key => ?_, [], ?_, .nil, fun key value => ?_⟩
    · rw [get, lookup_calls, hnone]
      rfl
    · rw [listKv, hempty]
      rfl
    · rw [hnone]
      simp

/-- A decoder for the value `null`. -/
def nulls : Serde := ⟨fun _ => "null".toUTF8.data.toList, fun _ => .ok .null, fun _ => .ok .null⟩

/-- One value is set: it can be read, but not listed. -/
theorem listKv_fails :
    get nulls (set nulls ∅ "agent" "key" .null) "agent" "key" = .ok (some .null) ∧
      listKv nulls (set nulls ∅ "agent" "key" .null) "agent" =
        .error (.memory "Invalid column type Blob at index: 1, name: value") :=
  ⟨rfl, rfl⟩

/-- The part of an agent that is stored. -/
structure AgentEntry (Id M S : Type) where
  id : Id
  name : String
  manifest : M
  state : S
  sessionId : Id
  deriving DecidableEq

/-- A row of the table `agents` as `load_all_agents` reads it. -/
structure AgentRow where
  id : String
  name : String
  manifest : List UInt8
  state : String
  sessionId : Option String

/-- The encodings of the columns, each of which decodes what it has encoded. -/
structure Codec (Id M S : Type) where
  idText : Id → String
  parseId : String → Option Id
  manifestBlob : M → List UInt8
  parseManifest : List UInt8 → Option M
  stateText : S → String
  parseState : String → Option S
  parseId_idText : ∀ id, parseId (idText id) = some id
  parseManifest_blob : ∀ m, parseManifest (manifestBlob m) = some m
  parseState_text : ∀ s, parseState (stateText s) = some s

variable {Id M S : Type} (codec : Codec Id M S)

def Codec.row (entry : AgentEntry Id M S) : AgentRow where
  id := codec.idText entry.id
  name := entry.name
  manifest := codec.manifestBlob entry.manifest
  state := codec.stateText entry.state
  sessionId := some (codec.idText entry.sessionId)

/-- The rows of the table, in the order of their insertion; `none` is one that cannot be read. -/
def saveAgent (rows : List (Option AgentRow)) (entry : AgentEntry Id M S) :
    List (Option AgentRow) :=
  let row := codec.row entry
  if rows.any fun r => r.any (·.id = row.id) then
    rows.map fun r => if r.any (·.id = row.id) then some row else r
  else rows ++ [some row]

-- `to_lowercase`, and the session ids that are made up for rows without one
variable (toLowercase : String → String) (freshId : AgentRow → Id)

def Codec.decode (row : AgentRow) : Option (AgentEntry Id M S) := do
  let id ← codec.parseId row.id
  let manifest ← codec.parseManifest row.manifest
  let state ← codec.parseState row.state
  return ⟨id, row.name, manifest, state,
    (row.sessionId.bind codec.parseId).getD (freshId row)⟩

def loadRows (seenNames : List String) : List AgentRow → List (AgentEntry Id M S)
  | [] => []
  | row :: rows =>
    let nameLower := toLowercase row.name
    if nameLower ∈ seenNames then loadRows seenNames rows
    else
      match codec.decode freshId row with
      | some entry => entry :: loadRows (nameLower :: seenNames) rows
      | none => loadRows (nameLower :: seenNames) rows

/-- Rows that cannot be read are skipped. -/
def loadAllAgents (rows : List (Option AgentRow)) : List (AgentEntry Id M S) :=
  loadRows codec toLowercase freshId [] rows.reduceOption

theorem decode_row (entry : AgentEntry Id M S) :
    codec.decode freshId (codec.row entry) = some entry := by
  simp [Codec.decode, Codec.row, codec.parseId_idText, codec.parseManifest_blob,
    codec.parseState_text]

theorem name_of_decode (h : codec.decode freshId row = some entry) : entry.name = row.name := by
  simp only [Codec.decode, Option.bind_eq_bind, Option.bind_eq_some_iff] at h
  obtain ⟨_, -, _, -, _, -, h⟩ := h
  cases h
  rfl

theorem loadRows_sublist (seen : List String) (rows : List AgentRow) :
    loadRows codec toLowercase freshId seen rows <+ rows.filterMap (codec.decode freshId) := by
  fun_induction loadRows codec toLowercase freshId seen rows with
  | case1 => exact .slnil
  | case2 seen row rows _ _ ih => exact ih.trans ((sublist_cons_self _ _).filterMap _)
  | case3 seen row rows _ _ entry hentry ih =>
    rw [filterMap_cons_some hentry]
    exact ih.cons_cons entry
  | case4 seen row rows _ _ _ ih => exact ih.trans ((sublist_cons_self _ _).filterMap _)

theorem loadRows_agents_iff (seen : List String) (agents : List (AgentEntry Id M S)) :
    loadRows codec toLowercase freshId seen (agents.map codec.row) = agents ↔
      agents.Pairwise (fun a b => toLowercase a.name ≠ toLowercase b.name) ∧
        ∀ entry ∈ agents, toLowercase entry.name ∉ seen := by
  induction agents generalizing seen with
  | nil => simp [loadRows]
  | cons entry agents ih =>
    have hname : (codec.row entry).name = entry.name := rfl
    rw [map_cons, loadRows, decode_row, hname]
    split_ifs with hseen
    · refine iff_of_false (fun heq => ?_) fun h => h.2 entry mem_cons_self hseen
      have hrows : (agents.map codec.row).filterMap (codec.decode freshId) = agents := by
        simp [filterMap_map, decode_row]
      have hsub := loadRows_sublist codec toLowercase freshId seen (agents.map codec.row)
      rw [heq, hrows] at hsub
      exact Nat.not_succ_le_self _ hsub.length_le
    · rw [cons.injEq, eq_self, true_and, ih, pairwise_cons, forall_mem_cons]
      grind

theorem mem_loadRows_iff (hrow : codec.decode freshId row = some entry)
    (hother : ∀ r ∈ rows₁ ++ rows₂, codec.decode freshId r ≠ none → r.name ≠ row.name)
    (seen : List String) :
    entry ∈ loadRows codec toLowercase freshId seen (rows₁ ++ row :: rows₂) ↔
      toLowercase row.name ∉ seen ∧ ∀ r ∈ rows₁, toLowercase r.name ≠ toLowercase row.name := by
  have hne : ∀ r ∈ rows₁ ++ rows₂, codec.decode freshId r ≠ some entry := by
    intro r hr hdecode
    refine hother r hr (hdecode ▸ Option.some_ne_none _) ?_
    rw [← name_of_decode codec freshId hdecode, name_of_decode codec freshId hrow]
  clear hother
  induction rows₁ generalizing seen with
  | nil =>
    rw [nil_append, loadRows, hrow]
    split_ifs with hseen
    · refine iff_of_false (fun hmem => ?_) fun h => h.1 hseen
      obtain ⟨r, hr, hdecode⟩ := mem_filterMap.mp ((loadRows_sublist ..).subset hmem)
      exact hne r hr hdecode
    · simpa using hseen
  | cons r rows₁ ih =>
    rw [cons_append, forall_mem_cons] at hne
    rw [cons_append, loadRows, forall_mem_cons]
    split_ifs with hseen
    · refine (ih seen hne.2).trans (and_congr_right fun hnot => (and_iff_right ?_).symm)
      exact fun heq => hnot (heq ▸ hseen)
    · have hskip : entry ∈ loadRows codec toLowercase freshId (toLowercase r.name :: seen)
          (rows₁ ++ row :: rows₂) ↔ toLowercase row.name ∉ seen ∧
            toLowercase r.name ≠ toLowercase row.name ∧
              ∀ r ∈ rows₁, toLowercase r.name ≠ toLowercase row.name := by
        refine (ih _ hne.2).trans ?_
        rw [mem_cons, not_or, eq_comm, and_assoc, and_left_comm]
      cases hr : codec.decode freshId r with
      | some entry' =>
        have hne' : entry ≠ entry' := fun heq => hne.1 (heq ▸ hr)
        exact (mem_cons.trans (or_iff_right hne')).trans hskip
      | none => exact hskip

theorem saveAgents_eq (agents : List (AgentEntry Id M S)) (hid : (agents.map (·.id)).Nodup) :
    agents.foldl (saveAgent codec) [] = agents.map fun entry => some (codec.row entry) := by
  induction agents using reverseRecOn with
  | nil => rfl
  | append_singleton agents entry ih =>
    rw [map_append, nodup_append] at hid
    rw [foldl_append, ih hid.1, foldl_cons, foldl_nil, saveAgent, map_append]
    refine if_neg fun hany => ?_
    obtain ⟨_, hmem, hrow⟩ := any_eq_true.mp hany
    obtain ⟨other, hother, rfl⟩ := mem_map.mp hmem
    refine hid.2.2 _ (mem_map_of_mem hother) _ (mem_singleton_self _) ?_
    have htext : codec.idText other.id = codec.idText entry.id := of_decide_eq_true hrow
    rw [← Option.some_inj, ← codec.parseId_idText, htext, codec.parseId_idText]

/-- **When agents survive a restart**: their names differ in more than case. -/
theorem agents_survive_iff (agents : List (AgentEntry Id M S))
    (hid : (agents.map (·.id)).Nodup) :
    (loadAllAgents codec toLowercase freshId (agents.foldl (saveAgent codec) []) = agents ↔
      agents.Pairwise fun a b => toLowercase a.name ≠ toLowercase b.name) ∧
    ∀ rows₁ row rows₂ entry, codec.decode freshId row = some entry →
      (∀ r, some r ∈ rows₁ ++ rows₂ → codec.decode freshId r ≠ none → r.name ≠ row.name) →
      (entry ∈ loadAllAgents codec toLowercase freshId (rows₁ ++ some row :: rows₂) ↔
        ∀ r, some r ∈ rows₁ → toLowercase r.name ≠ toLowercase row.name) := by
  constructor
  · have hrows : (agents.map fun entry => some (codec.row entry)).reduceOption =
        agents.map codec.row := by
      simp [reduceOption, filterMap_map]
    rw [saveAgents_eq codec agents hid, loadAllAgents, hrows, loadRows_agents_iff]
    exact and_iff_left fun _ _ => not_mem_nil
  · intro rows₁ row rows₂ entry hrow hother
    have hother' : ∀ r ∈ rows₁.reduceOption ++ rows₂.reduceOption,
        codec.decode freshId r ≠ none → r.name ≠ row.name := by
      intro r hr
      rw [← reduceOption_append, reduceOption_mem_iff] at hr
      exact hother r hr
    rw [loadAllAgents, reduceOption_append, reduceOption_cons_of_some,
      mem_loadRows_iff codec toLowercase freshId hrow hother']
    simp only [reduceOption_mem_iff]
    exact and_iff_right not_mem_nil

/-- Ids, manifests and states that are their own encodings. -/
def plain : Codec String (List UInt8) String :=
  ⟨id, some, id, some, id, some, fun _ => rfl, fun _ => rfl, fun _ => rfl⟩

def lowerAscii (s : String) : String := .ofList (s.toList.map Char.toLower)

def agentNamed (id name : String) : AgentEntry String (List UInt8) String :=
  ⟨id, name, [], "running", "session"⟩

/-- Of two agents whose names differ in case only, one is lost. -/
theorem agent_lost :
    loadAllAgents plain lowerAscii (fun _ => "")
        ([agentNamed "1" "coder", agentNamed "2" "Coder"].foldl (saveAgent plain) []) =
      [agentNamed "1" "coder"] := by
  decide

theorem agents_survive_example :
    loadAllAgents plain lowerAscii (fun _ => "")
        ([agentNamed "1" "coder", agentNamed "2" "writer"].foldl (saveAgent plain) []) =
      [agentNamed "1" "coder", agentNamed "2" "writer"] :=
  (agents_survive_iff plain lowerAscii (fun _ => "") _ (by decide)).1.mpr (by decide)

end AlloyAgent.StructuredStore
